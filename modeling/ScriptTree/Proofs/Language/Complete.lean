import ScriptTree.Proofs.Symbols

/-!
# What is derived is read

Words of the language, with no word behind them that would go on with the last part, are read as the
tree that they are derived from. An operand is read up to where the climb goes on: whatever the climb
makes of it from there, the expression is from its front.
-/

namespace ScriptTree

open Actions

def Word.Readable (w : Word) : Prop := w.Spelled ∧ w.Known

def Word.front : List Word → String
  | [] => endId
  | w :: _ => w.symbol

structure ScopeChain.Fresh (names : List String) (c : ScopeChain) : Prop where
  nodup : names.Nodup
  free : ∀ name ∈ names, isKeyword name = false ∧ c.current.lookup? name = none

/-- The second parser has these words ahead, and between the two these names were declared. -/
structure Parser.Reaches (names : List String) (words : List Word) (p q : Parser) : Prop where
  stands : q.Stands Word.Readable
  words : q.words = words
  gains : p.scopes.Gains names q.scopes

namespace ScopeChain

section
variable {names others : List String} {c d : ScopeChain}

theorem Fresh.left (h : Fresh (names ++ others) c) : Fresh names c :=
  ⟨(List.nodup_append.1 h.nodup).1, fun name hn => h.free name (List.mem_append_left _ hn)⟩

theorem Fresh.right (h : Fresh (names ++ others) c) (hg : c.Gains names d) : Fresh others d where
  nodup := (List.nodup_append.1 h.nodup).2.1
  free name hn := by
    obtain ⟨hk, hfree⟩ := h.free name (List.mem_append_right _ hn)
    have hne : name ∉ names := fun hm => (List.nodup_append.1 h.nodup).2.2 name hm name hn rfl
    exact ⟨hk, (hg name hk hne).trans hfree⟩

theorem Fresh.move (h : Fresh names c) (hg : c.Gains [] d) : Fresh names d :=
  Fresh.right (show Fresh ([] ++ names) c from h) hg

theorem Fresh.push (c : ScopeChain) (hn : names.Nodup) (hk : ∀ name ∈ names, isKeyword name = false) :
    Fresh names c.push :=
  ⟨hn, fun name h => ⟨hk name h, rfl⟩⟩

theorem Fresh.nil (c : ScopeChain) : Fresh [] c :=
  ⟨List.nodup_nil, fun _ h => (List.not_mem_nil h).elim⟩

end

end ScopeChain

namespace Parser

section
variable {p q r : Parser} {names others : List String} {words more : List Word}

theorem Reaches.refl (hp : p.Stands Word.Readable) (hw : p.words = words) : p.Reaches [] words p :=
  ⟨hp, hw, .refl _⟩

theorem Reaches.trans (h : p.Reaches names words q) (h' : q.Reaches others more r) :
    p.Reaches (names ++ others) more r :=
  ⟨h'.stands, h'.words, h.gains.trans h'.gains⟩

theorem Reaches.move (h : p.Reaches names words q) (h' : q.Reaches [] more r) :
    p.Reaches names more r := by
  have := h.trans h'
  rwa [List.append_nil] at this

theorem Stands.id_eq_front (h : p.Stands Word.Readable) (hw : p.words = words) :
    p.current.id = Word.front words := by
  rw [h.symbol, ← hw]
  rfl

end

end Parser

/-! ## First words -/

def Part.Headed (ws : List Word) : Part → Prop
  | .operand .. => ∃ (rule : PrefixRule) (w : Word) (rest : List Word), ws = w :: rest ∧
      w.symbol ∈ rule.ids
  | .element .. | .list .. => ∃ (w : Word) (rest : List Word), ws = w :: rest ∧
      (w.Spelled → ∀ bracket : Bracket, w.symbol ≠ bracket.close)
  | .statement .. => ∃ (w : Word) (rest : List Word), ws = w :: rest ∧
      w.symbol ∉ ["\x7d", endId, "else"]
  | .statements .. => ∀ w ∈ ws.head?, w.symbol ∉ ["\x7d", endId, "else"]
  | .conditional _ => ∃ rest, ws = (.name, "if") :: rest
  | .block _ => ∃ rest, ws = (.operator, "\x7b") :: rest
  | _ => True

theorem PrefixRule.not_mem_of_mem {id : String} {rule : PrefixRule} (h : id ∈ rule.ids) :
    id ∉ [")", "]", "\x7d", ";", "else", endId] := by
  have hall : ∀ rule ∈ PrefixRule.all, ∀ id ∈ rule.ids,
      id ∉ [")", "]", "\x7d", ";", "else", endId] := by
    decide
  exact hall rule (by cases rule <;> decide) id h

theorem mem_keywords_of_constant {id : String} (h : id ∈ PrefixRule.constant.ids) :
    id ∈ keywords := by
  have hall : ∀ id ∈ PrefixRule.constant.ids, id ∈ keywords := by decide
  exact hall id h

namespace Word

theorem symbol_mem_of_keyword {text : String} {ids : List String} (hk : text ∈ keywords)
    (h : text ∈ ids) : symbol (.name, text) ∈ ids := by
  rwa [symbol_of_keyword (isKeyword_of_mem hk)]

/-- What is read in front of an operand is a symbol of its own, and no variable. -/
theorem symbol_of_unary {w : Word}
    (hw : w ∈ [(.operator, "-"), (.operator, "!"), (.name, "typeof")]) :
    w.symbol = w.2 ∧ w.2 ∈ PrefixRule.unary.ids ∧ (w.1 = .name → isKeyword w.2 = true) := by
  simp only [List.mem_cons, List.not_mem_nil, or_false] at hw
  rcases hw with rfl | rfl | rfl
  · exact ⟨rfl, by decide, nofun⟩
  · exact ⟨rfl, by decide, nofun⟩
  · have hk : isKeyword "typeof" = true := isKeyword_of_mem (by decide)
    exact ⟨symbol_of_keyword hk, by decide, fun _ => hk⟩

/-- A key of an entry closes no bracket, whatever word it is. -/
theorem symbol_ne_close_of_isKey {w : Word} (hw : w.isKey) (hs : w.Spelled) (bracket : Bracket) :
    w.symbol ≠ bracket.close := by
  obtain ⟨kind, text⟩ := w
  intro h
  have hop : isOperator bracket.close = true := by cases bracket <;> decide
  have heq := eq_of_symbol_operator hs h hop
  rcases hw with hk | hk | hk
  all_goals
    rw [heq] at hk
    cases hk

end Word

theorem headed_append {level other : Level} {node more : Node} {ws : List Word}
    (h : Part.Headed ws (.operand level node)) (vs : List Word) :
    Part.Headed (ws ++ vs) (.operand other more) := by
  obtain ⟨rule, w, rest, rfl, hw⟩ := h
  exact ⟨rule, w, rest ++ vs, rfl, hw⟩

theorem Derives.headed {functions : Prop} {part : Part} {ws : List Word}
    (h : Derives functions part ws) : part.Headed ws := by
  induction h with
  | name hk => exact ⟨.name, _, _, rfl, by rw [Word.symbol_of_name hk]; decide⟩
  | number | string => exact ⟨.literal, _, _, rfl, List.mem_singleton.2 rfl⟩
  | self => exact ⟨.self, _, _, rfl, Word.symbol_mem_of_keyword (by decide) (by decide)⟩
  | constant hid =>
    exact ⟨.constant, _, _, rfl, Word.symbol_mem_of_keyword (mem_keywords_of_constant hid) hid⟩
  | array => exact ⟨.array, _, _, rfl, by decide⟩
  | object => exact ⟨.object, _, _, rfl, by decide⟩
  | group => exact ⟨.grouping, _, _, rfl, by decide⟩
  | function => exact ⟨.function, _, _, rfl, Word.symbol_mem_of_keyword (by decide) (by decide)⟩
  | raise _ ih => exact ih
  | member _ ih => exact headed_append ih _
  | index _ _ ih _ => exact headed_append ih _
  | call _ _ _ ih _ => exact headed_append ih _
  | unary hw =>
    obtain ⟨hsym, hid, -⟩ := Word.symbol_of_unary hw
    exact ⟨.unary, _, _, rfl, hsym ▸ hid⟩
  | binary _ _ _ ih _ => exact headed_append ih _
  | logic _ _ _ ih _ => exact headed_append ih _
  | ternary _ _ _ ih _ _ => exact headed_append ih _
  | assignment _ _ _ _ ih _ => exact headed_append ih _
  | item _ ih =>
    obtain ⟨rule, w, rest, rfl, hw⟩ := ih
    refine ⟨w, rest, rfl, fun _ bracket heq => ?_⟩
    rw [heq] at hw
    refine PrefixRule.not_mem_of_mem hw ?_
    cases bracket <;> decide
  | entry hw => exact ⟨_, _, rfl, Word.symbol_ne_close_of_isKey hw⟩
  | parameter | uninitialised | initialised =>
    exact ⟨_, _, rfl, Word.symbol_ne_close_of_isKey (.inl rfl)⟩
  | last _ ih => exact ih
  | more _ _ ih _ =>
    obtain ⟨w, rest, rfl, hw⟩ := ih
    exact ⟨w, _, rfl, hw⟩
  | expressionStatement _ _ _ ih =>
    obtain ⟨rule, w, rest, rfl, hw⟩ := ih
    refine ⟨w, _, rfl, fun h => PrefixRule.not_mem_of_mem hw ?_⟩
    revert h
    simp only [List.mem_cons, List.not_mem_nil, or_false]
    rintro (h | h | h) <;> simp [h]
  | blockStatement _ ih =>
    obtain ⟨rest, rfl⟩ := ih
    exact ⟨_, _, rfl, by decide⟩
  | declaration | whileLoop | breakOut | returnNothing | returnValue =>
    exact ⟨_, _, rfl, by rw [Word.symbol_of_keyword (isKeyword_of_mem (by decide))]; decide⟩
  | ifElse _ ih =>
    obtain ⟨rest, rfl⟩ := ih
    exact ⟨_, _, rfl, by rw [Word.symbol_of_keyword (isKeyword_of_mem (by decide))]; decide⟩
  | conditional => exact ⟨_, rfl⟩
  | done => exact nofun
  | next _ _ ih _ =>
    obtain ⟨w, rest, rfl, hw⟩ := ih
    rintro _ ⟨⟩
    exact hw
  | final _ ih =>
    obtain ⟨w, rest, rfl, hw⟩ := ih
    rintro _ ⟨⟩
    exact hw
  | block => exact ⟨_, rfl⟩
  | _ => trivial

def Part.names : Part → List String
  | .element _ _ names | .list _ _ names | .upTo _ _ _ names | .statement _ names _ |
    .statements _ names _ => names
  | .functionName name => name.toList
  | _ => []

/-- No word of the grammar is declared. -/
theorem Derives.not_isKeyword {functions : Prop} {part : Part} {ws : List Word}
    (h : Derives functions part ws) : ∀ name ∈ part.names, isKeyword name = false := by
  induction h with
  | parameter hk | uninitialised hk | initialised hk | named hk =>
    intro name hn
    obtain rfl := List.mem_singleton.1 hn
    exact hk
  | more _ _ ih₁ ih₂ | next _ _ ih₁ ih₂ =>
    intro name hn
    exact (List.mem_append.1 hn).elim (ih₁ name) (ih₂ name)
  | last _ ih => exact ih
  | filled _ ih => exact ih
  | declaration _ ih => exact ih
  | final _ ih => exact ih
  | _ => exact fun _ hn => (List.not_mem_nil hn).elim

/-! ## Steps over words -/

def closers : List String := [")", "]", "\x7d", ":", ";", ",", endId, "else"]

theorem power_of_closer {id : String} (h : id ∈ closers) : SymbolTable.grammar.power id = 0 := by
  have hall : ∀ id ∈ closers, SymbolTable.grammar.power id = 0 := by decide +kernel
  exact hall id h

theorem Bracket.close_mem_closers (bracket : Bracket) : bracket.close ∈ closers := by
  cases bracket <;> decide

namespace Parser.Stands

section
variable {p : Parser} {more : List Word} (hp : p.Stands Word.Readable)
include hp

theorem step {w : Word} (hw : p.words = w :: more) (hk : w.1 ≠ .ending) :
    ∃ q, (standard .grammar).advance p = (.ok p.current, q) ∧ p.current.token.word = w ∧
      p.current.id = w.symbol ∧ p.Reaches [] more q := by
  obtain ⟨q, hm, hword, hid, hq, hmore, hs⟩ := hp.move (fun _ h => h.2) hw hk
  exact ⟨q, hm, hword, hid, hq, hmore, hs ▸ .refl _⟩

theorem expect {id : String} (hw : p.words = (.operator, id) :: more) :
    ∃ t q, (standard .grammar).expect id p = (.ok t, q) ∧ p.Reaches [] more q := by
  obtain ⟨q, hm, -, hid, hq⟩ := hp.step hw nofun
  exact ⟨_, q, expect_eq_ok.2 ⟨hid, hm⟩, hq⟩

/-- A change of the scopes moves over no word. -/
theorem withScopes {scopes : ScopeChain} {names : List String} (hw : p.words = more)
    (hs : scopes.KeepsKeywords) (hg : p.scopes.Gains names scopes) :
    p.Reaches names more { p with scopes } :=
  ⟨⟨hp.symbol, hs, hp.ahead⟩, hw, hg⟩

theorem reserve {t : SymbolToken} (hw : p.words = more)
    (ht : t.isName = true → isKeyword t.value = true) :
    ∃ q, (standard .grammar).reserve t p = (.ok (), q) ∧ p.Reaches [] more q := by
  cases hn : t.isName with
  | false =>
    refine ⟨p, standard_reserve_eq_ok.2 ⟨p.scopes, by rw [hn]; rfl, rfl⟩, .refl hp hw⟩
  | true =>
    obtain ⟨scopes, hr, hg⟩ := ScopeChain.reserve_of_keeps t.position hp.scopes (ht hn)
    refine ⟨_, standard_reserve_eq_ok.2 ⟨scopes, ?_, rfl⟩,
      hp.withScopes hw (hp.scopes.reserve hr) hg⟩
    rw [if_pos hn]
    exact hr

theorem declare {text : String} (hw : p.words = (.name, text) :: more)
    (hf : p.scopes.Fresh [text]) : p.current.isName = true ∧ p.current.value = text ∧
      ∃ q t r, (standard .grammar).define p.current p = (.ok p.current.asName, q) ∧
        (standard .grammar).advance q = (.ok t, r) ∧ p.Reaches [text] more r := by
  obtain ⟨hk, hfree⟩ := hf.free text (List.mem_singleton.2 rfl)
  have hword : p.current.token.word = (.name, text) := (List.cons.inj hw).1
  have hvalue : p.current.value = text := congrArg Prod.snd hword
  have hname : p.current.isName = true := by
    have hkind : p.current.token.kind = .name := congrArg Prod.fst hword
    simp [SymbolToken.isName, Token.isName, hkind]
  obtain ⟨known, hd⟩ := ScopeChain.define_of_free p.current.position hfree
  have hq := hp.withScopes hw (hp.scopes.insert fun h => absurd (hk.symm.trans h) Bool.false_ne_true)
    (ScopeChain.gains_insert text known)
  obtain ⟨r, hm, -, -, hr⟩ := hq.stands.step hq.words fun h => by cases h
  refine ⟨hname, hvalue, _, _, r, standard_define_eq_ok.2 ⟨_, ?_, rfl, rfl⟩, hm, hq.trans hr⟩
  rw [← hd, SymbolToken.asName, hvalue]

end

end Parser.Stands

/-! ## What a part is read as -/

/-- How the words of a part are read, wherever they stand in front of words that do not go on with
it. -/
def Part.Read (ws : List Word) : Part → Prop
  | .operand level node => ∀ p more power, p.Stands Word.Readable → p.words = ws ++ more →
      SymbolTable.grammar.power (Word.front more) ≤ level.ceiling → power < level.floor →
      ∃ q left, p.Reaches [] more q ∧ left.bare = node ∧ ∀ node s,
        Reads .grammar (.standard .grammar) (.climb power left node) q s →
        Reads .grammar (.standard .grammar) (.expression power node) p s
  | .element kind nodes names => ∀ p more, p.Stands Word.Readable → p.words = ws ++ more →
      SymbolTable.grammar.power (Word.front more) = 0 → p.scopes.Fresh names →
      ∃ q made, p.Reaches names more q ∧ made.map Node.bare = nodes ∧
        Reads .grammar (.standard .grammar) (.element kind made) p q
  | .list kind nodes names => ∀ p more, p.Stands Word.Readable → p.words = ws ++ more →
      SymbolTable.grammar.power (Word.front more) = 0 → Word.front more ≠ "," →
      p.scopes.Fresh names → ∃ q made, p.Reaches names more q ∧ made.map Node.bare = nodes ∧
        Reads .grammar (.standard .grammar) (.list kind made) p q
  | .upTo bracket kind nodes names => ∀ p more, p.Stands Word.Readable → p.words = ws ++ more →
      p.scopes.Fresh names → ∃ q made, p.Reaches names more q ∧ made.map Node.bare = nodes ∧
        Reads .grammar (.standard .grammar) (.upTo bracket kind made) p q
  | .functionName name => ∀ p more, p.Stands Word.Readable →
      p.words = ws ++ (.operator, "(") :: more → p.scopes.Fresh name.toList →
      ∃ q, p.Reaches name.toList ((.operator, "(") :: more) q ∧
        Reads .grammar (.standard .grammar) (.functionName name) p q
  | .statement read names ends => ∀ p more, p.Stands Word.Readable → p.words = ws ++ more →
      (ends = true → Word.front more = "\x7d") → Word.front more ≠ "else" →
      p.scopes.Fresh names → ∃ q made, p.Reaches names more q ∧ made.bare = read ∧
        Reads .grammar (.standard .grammar) (.statement made) p q
  | .statements nodes names ends => ∀ p more, p.Stands Word.Readable → p.words = ws ++ more →
      Word.front more = "\x7d" ∨ Word.front more = endId ∧ ends = false →
      p.scopes.Fresh names → ∃ q made, p.Reaches names more q ∧ made.map Node.bare = nodes ∧
        Reads .grammar (.standard .grammar) (.statements made) p q
  | .conditional node => ∀ p more, p.Stands Word.Readable → p.words = ws ++ more →
      Word.front more ≠ "else" → ∃ q made, p.Reaches [] more q ∧ made.bare = node ∧
        Reads .grammar (.standard .grammar) (.statement (.single made)) p q
  | .alternative read => ∀ p more, p.Stands Word.Readable → p.words = ws ++ more →
      Word.front more ≠ "else" → ∃ q made, p.Reaches [] more q ∧ made.bare = read ∧
        Reads .grammar (.standard .grammar) (.alternative made) p q
  | .block body => ∃ vs, ws = (.operator, "\x7b") :: vs ∧ ∀ p more,
      p.Stands Word.Readable → p.words = vs ++ more →
      ∃ q made, p.Reaches [] more q ∧ made.bare = body ∧
        Reads .grammar (.standard .grammar) (.blockBody made) p q

section
variable {p : Parser} {ws vs us more : List Word} (hp : p.Stands Word.Readable)
include hp

theorem read_front (rule : PrefixRule) {w : Word} (hw : p.words = w :: more)
    (hr : w.symbol ∈ rule.ids) :
    ∃ q, p.Reaches [] more q ∧ p.current.token.word = w ∧ p.current.id = w.symbol ∧
      ∀ power left node r s,
        Reads .grammar (.standard .grammar) (.operand rule p.current left) q r →
        Reads .grammar (.standard .grammar) (.climb power left node) r s →
        Reads .grammar (.standard .grammar) (.expression power node) p s := by
  have hk : w.1 ≠ .ending := by
    intro hk
    obtain ⟨kind, text⟩ := w
    cases hk
    exact PrefixRule.not_mem_of_mem hr (show endId ∈ _ by decide)
  obtain ⟨q, hm, hword, hid, hq⟩ := hp.step hw hk
  refine ⟨q, hq, hword, hid, fun power left node r s ho hc => ?_⟩
  exact .expression hm (prefixRule_eq_some.2 (hid ▸ hr)) ho hc

/-- A whole expression is an operand behind which the climb ends. -/
theorem read_expression {level : Level} {node : Node} (power : BindingPower)
    (h : Part.Read ws (.operand level node)) (hw : p.words = ws ++ more)
    (hceil : SymbolTable.grammar.power (Word.front more) ≤ level.ceiling)
    (hfloor : power < level.floor) (hpow : SymbolTable.grammar.power (Word.front more) ≤ power) :
    ∃ q made, p.Reaches [] more q ∧ made.bare = node ∧
      Reads .grammar (.standard .grammar) (.expression power made) p q := by
  obtain ⟨q, made, hq, hbare, hread⟩ := h p more power hp hw hceil hfloor
  refine ⟨q, made, hq, hbare, hread made q (.stay ?_)⟩
  rw [hq.stands.id_eq_front hq.words]
  exact Nat.not_lt.2 hpow

theorem read_closed {node : Node} (h : Part.Read ws (.operand .expression node))
    (hw : p.words = ws ++ more) (hc : Word.front more ∈ closers) :
    ∃ q made, p.Reaches [] more q ∧ made.bare = node ∧
      Reads .grammar (.standard .grammar) (.expression .none made) p q := by
  have hpow := Nat.le_of_eq (power_of_closer hc)
  exact read_expression hp .none h hw hpow (by decide) hpow

theorem read_operator {id : String} (rule : InfixRule) (power : BindingPower)
    (hw : p.words = (.operator, id) :: more) (hop : (id, power) ∈ rule.operators) :
    ∃ q, p.Reaches [] more q ∧ p.current.id = id ∧ ∀ low left middle node r s, low < power →
      Reads .grammar (.standard .grammar) (.operation rule p.current left power middle) q r →
      Reads .grammar (.standard .grammar) (.climb low middle node) r s →
      Reads .grammar (.standard .grammar) (.climb low left node) p s := by
  obtain ⟨q, hm, -, hid, hq⟩ := hp.step hw nofun
  have hid : p.current.id = id := hid
  obtain ⟨symbol, hl, hr, rfl, hpow⟩ := lookup?_of_operator hop
  refine ⟨q, hq, hid, fun low left middle node r s hlow ho hc => ?_⟩
  refine .climb ?_ hm (hid ▸ hl) hr ho hc
  rw [hid, hpow]
  exact hlow

end

section
variable {functions : Prop} {ws vs us : List Word}

/-! ### Operands -/

theorem read_name {text : String} (hk : isKeyword text = false) :
    Part.Read [(.name, text)] (.operand .primary (.ofName text .start)) := by
  intro p more power hp hw _ _
  have hr : Word.symbol (.name, text) ∈ PrefixRule.name.ids := by
    rw [Word.symbol_of_name hk]
    decide
  obtain ⟨q, hq, hword, -, hread⟩ := read_front hp _ hw hr
  have hvalue : p.current.value = text := congrArg Prod.snd hword
  refine ⟨q, p.current.asName, hq, ?_, fun node s hc => hread _ _ _ _ _ .name hc⟩
  rw [← hvalue]
  rfl

theorem read_number {text : String} {n : Number} (hn : Number.ofText? text = some n) :
    Part.Read [(.number, text)] (.operand .primary (.ofValue (.number n) .start)) := by
  intro p more power hp hw _ _
  have hr : Word.symbol (.number, text) ∈ PrefixRule.literal.ids := List.mem_singleton.2 rfl
  obtain ⟨q, hq, hword, -, hread⟩ := read_front hp _ hw hr
  have hkind : p.current.token.kind = .number := congrArg Prod.fst hword
  have hvalue : p.current.value = text := congrArg Prod.snd hword
  exact ⟨q, .ofValue (.number n) p.current.position, hq, rfl,
    fun node s hc => hread _ _ _ _ _ (.number hkind (hvalue ▸ hn)) hc⟩

theorem read_string {text : String} :
    Part.Read [(.string, text)] (.operand .primary (.ofValue (.string text) .start)) := by
  intro p more power hp hw _ _
  have hr : Word.symbol (.string, text) ∈ PrefixRule.literal.ids := List.mem_singleton.2 rfl
  obtain ⟨q, hq, hword, -, hread⟩ := read_front hp _ hw hr
  have hkind : p.current.token.kind = .string := congrArg Prod.fst hword
  have hvalue : p.current.value = text := congrArg Prod.snd hword
  refine ⟨q, .ofValue (.string p.current.value) p.current.position, hq, by rw [hvalue]; rfl,
    fun node s hc => hread _ _ _ _ _ (.string ?_) hc⟩
  rw [hkind]
  nofun

theorem isKeyword_of_word {t : SymbolToken} {w : Word} (hword : t.token.word = w)
    (hk : w.1 = .name → isKeyword w.2 = true) : t.isName = true → isKeyword t.value = true := by
  intro hn
  subst hword
  exact hk (by simpa [SymbolToken.isName, Token.isName, Token.word] using hn)

theorem read_self : Part.Read [(.name, "this")] (.operand .primary (.plain "this" .self)) := by
  intro p more power hp hw _ _
  have hk : isKeyword "this" = true := isKeyword_of_mem (by decide)
  have hsym := Word.symbol_of_keyword hk
  obtain ⟨q, hq, hword, hid, hread⟩ := read_front hp .self hw (by rw [hsym]; decide)
  obtain ⟨r, hr, hr'⟩ := hq.stands.reserve hq.words (isKeyword_of_word hword fun _ => hk)
  refine ⟨r, p.current.node .self, hq.trans hr', ?_,
    fun node s hc => hread _ _ _ _ _ (.self hr) hc⟩
  rw [SymbolToken.bare_node, hid, hsym]
  rfl

theorem read_constant {id : String} (hid : id ∈ ["true", "false", "null", "pi"]) :
    Part.Read [(.name, id)]
      (.operand .primary (.plain id (.literal (SymbolTable.grammar.constantOf id)))) := by
  intro p more power hp hw _ _
  have hk := isKeyword_of_mem (mem_keywords_of_constant hid)
  have hsym := Word.symbol_of_keyword hk
  obtain ⟨q, hq, hword, hcur, hread⟩ := read_front hp .constant hw (by rwa [hsym])
  obtain ⟨r, hr, hr'⟩ := hq.stands.reserve hq.words (isKeyword_of_word hword fun _ => hk)
  refine ⟨r, _, hq.trans hr', ?_, fun node s hc => hread _ _ _ _ _ (.constant hr) hc⟩
  rw [SymbolToken.bare_node, hcur, hsym]
  rfl

theorem read_array {nodes : List Node} (ih : Part.Read ws (.upTo .square .items nodes [])) :
    Part.Read ((.operator, "[") :: ws) (.operand .primary (.plain "[" (.array nodes))) := by
  intro p more power hp hw _ _
  obtain ⟨q, hq, -, hid, hread⟩ := read_front hp .array hw (by decide)
  obtain ⟨r, made, hr, rfl, hlist⟩ := ih q more hq.stands hq.words (.nil _)
  refine ⟨r, p.current.node (.array made), hq.trans hr, ?_,
    fun node s hc => hread _ _ _ _ _ (.array hlist) hc⟩
  rw [SymbolToken.bare_node, hid, Form.bare, bareNodes_eq]
  rfl

theorem read_object {nodes : List Node} (ih : Part.Read ws (.upTo .curly .entries nodes [])) :
    Part.Read ((.operator, "\x7b") :: ws) (.operand .primary (.plain "\x7b" (.object nodes))) := by
  intro p more power hp hw _ _
  obtain ⟨q, hq, -, hid, hread⟩ := read_front hp .object hw (by decide)
  obtain ⟨r, made, hr, rfl, hlist⟩ := ih q more hq.stands hq.words (.nil _)
  refine ⟨r, p.current.node (.object made), hq.trans hr, ?_,
    fun node s hc => hread _ _ _ _ _ (.object hlist) hc⟩
  rw [SymbolToken.bare_node, hid, Form.bare, bareNodes_eq]
  rfl

theorem read_group {node : Node} (ih : Part.Read ws (.operand .expression node)) :
    Part.Read ((.operator, "(") :: (ws ++ [(.operator, ")")])) (.operand .primary node) := by
  intro p more power hp hw _ _
  rw [List.cons_append, List.append_assoc] at hw
  obtain ⟨q, hq, -, -, hread⟩ := read_front hp .grouping hw (by decide)
  obtain ⟨r, made, hr, hbare, hinner⟩ := read_closed hq.stands ih hq.words (show ")" ∈ _ by decide)
  obtain ⟨t, s, hm, hs⟩ := hr.stands.expect hr.words
  exact ⟨s, made, (hq.trans hr).trans hs, hbare,
    fun node x hc => hread _ _ _ _ _ (.grouping hinner hm) hc⟩

theorem read_raise {level : Level} {node : Node}
    (ih : Part.Read ws (.operand level.tighter node)) : Part.Read ws (.operand level node) := by
  intro p more power hp hw hceil hfloor
  refine ih p more power hp hw (Nat.le_trans hceil ?_) (Nat.lt_of_lt_of_le hfloor ?_)
  · cases level <;> decide
  · cases level <;> decide

theorem read_unary {w : Word} {operand : Node}
    (hw : w ∈ [(.operator, "-"), (.operator, "!"), (.name, "typeof")])
    (ih : Part.Read ws (.operand .unary operand)) :
    Part.Read (w :: ws) (.operand .unary (.plain w.2 (.unary operand))) := by
  intro p more power hp hwords hceil _
  obtain ⟨hsym, hid, hk⟩ := Word.symbol_of_unary hw
  obtain ⟨q, hq, hword, hcur, hread⟩ := read_front hp .unary hwords (hsym ▸ hid)
  obtain ⟨r, hr, hr'⟩ := hq.stands.reserve hq.words (isKeyword_of_word hword hk)
  have hr' := hq.trans hr'
  obtain ⟨s, made, hs, rfl, hoperand⟩ :=
    read_expression hr'.stands .unary ih hr'.words hceil (by decide) hceil
  refine ⟨s, p.current.node (.unary made), hr'.trans hs, ?_,
    fun node x hc => hread _ _ _ _ _ (.unary hr hoperand) hc⟩
  rw [SymbolToken.bare_node, hcur, hsym]
  rfl

/-! ### Scopes -/

omit ws vs us in
theorem read_openScope {p : Parser} {words : List Word} (hp : p.Stands Word.Readable)
    (hw : p.words = words) : ∃ q, (standard .grammar).openScope p = (.ok (), q) ∧
      q.Stands Word.Readable ∧ q.words = words ∧ q.scopes = p.scopes.push :=
  ⟨_, standard_openScope_eq_ok.2 rfl, ⟨hp.symbol, hp.scopes.push, hp.ahead⟩, hw, rfl⟩

/-- The end of a scope leaves the scopes as they were in front of it. -/
theorem read_scopeEnd {p q r : Parser} {u : Unit} {more : List Word}
    (ho : (standard .grammar).openScope p = (.ok u, q)) (hf : q.scopes.Frames r.scopes)
    (hr : r.Stands Word.Readable) (hw : r.words = (.operator, "\x7d") :: more) :
    ∃ t s, (standard .grammar).expectScopeEnd "\x7d" r = (.ok t, s) ∧ p.Reaches [] more s := by
  have hpop : Parser.Stands Word.Readable { r with scopes := r.scopes.pop } :=
    ⟨hr.symbol, hr.scopes.pop, hr.ahead⟩
  obtain ⟨s, hm, -, hid, hs⟩ := hpop.step hw nofun
  have hend : (standard .grammar).expectScopeEnd "\x7d" r = (.ok r.current, s) :=
    expectScopeEnd_eq_ok.2 ⟨hid, (), _, standard_closeScope_eq_ok.2 rfl, hm⟩
  refine ⟨_, s, hend, hs.stands, hs.words, ?_⟩
  rw [scopes_of_scopeEnd (.refl _) ho hf hend]
  exact .refl _

theorem read_function {name : Option String} {parameters nodes : List Node}
    {names declared : List String} {ends : Bool}
    (hk : ∀ x ∈ name.toList ++ (names ++ declared), isKeyword x = false)
    (hn : (name.toList ++ (names ++ declared)).Nodup) (ih₁ : Part.Read ws (.functionName name))
    (ih₂ : Part.Read vs (.upTo .round .parameters parameters names))
    (ih₃ : Part.Read us (.statements nodes declared ends)) :
    Part.Read ((.name, "function") :: (ws ++ (.operator, "(") :: (vs ++ (.operator, "\x7b") ::
        (us ++ [(.operator, "\x7d")]))))
      (.operand .primary (.plain "function" (.function name parameters (.ofList nodes)))) := by
  intro p more power hp hw _ _
  have hsym := Word.symbol_of_keyword (isKeyword_of_mem (by decide : "function" ∈ keywords))
  simp only [List.cons_append, List.append_assoc, List.nil_append] at hw
  obtain ⟨q, hq, -, hid, hread⟩ := read_front hp .function hw (by rw [hsym]; decide)
  obtain ⟨q', ho, hq', hwords, hpush⟩ := read_openScope hq.stands hq.words
  have hfresh : q'.scopes.Fresh (name.toList ++ (names ++ declared)) := hpush ▸ .push _ hn hk
  obtain ⟨r, hr, hname⟩ := ih₁ q' _ hq' hwords hfresh.left
  obtain ⟨sign, s, hs, hs'⟩ := hr.stands.expect hr.words
  have hfresh := hfresh.right (hr.move hs').gains
  obtain ⟨u, made, hu, rfl, hlist⟩ := ih₂ s _ hs'.stands hs'.words hfresh.left
  obtain ⟨brace, v, hv, hv'⟩ := hu.stands.expect hu.words
  have hfresh := hfresh.right (hu.move hv').gains
  obtain ⟨w, body, hw', rfl, hbody⟩ := ih₃ v _ hv'.stands hv'.words (.inl rfl) hfresh
  have ha := Refines.refl (standard .grammar)
  have hf : q'.scopes.Frames w.scopes := (frames_of_reads ha hname).trans
    ((frames_of_expect ha hs).trans ((frames_of_reads ha hlist).trans
      ((frames_of_expect ha hv).trans (frames_of_reads ha hbody))))
  obtain ⟨closing, x, hx, hx'⟩ := read_scopeEnd ho hf hw'.stands hw'.words
  refine ⟨x, _, hq.trans hx', ?_, fun node y hc =>
    hread _ _ _ _ _ (.function ho hname hs hlist hv hbody hx) hc⟩
  rw [SymbolToken.bare_node, hid, hsym, Form.bare, bareNodes_eq, Statements.bare_ofList]

/-! ### Operations -/

theorem read_member {object : Node} {text : String} (ih : Part.Read ws (.operand .access object)) :
    Part.Read (ws ++ [(.operator, "."), (.name, text)])
      (.operand .access (.plain "." (.member object (.ofValue (.string text) .start)))) := by
  intro p more power hp hw _ hfloor
  rw [List.append_assoc] at hw
  obtain ⟨q, left, hq, rfl, hleft⟩ := ih p _ power hp hw (power_le _) hfloor
  obtain ⟨r, hr, hid, hop⟩ := read_operator hq.stands .member .member hq.words (by decide)
  obtain ⟨s, hm, hword, -, hs⟩ := hr.stands.step hr.words nofun
  have hvalue : r.current.value = text := congrArg Prod.snd hword
  have hname : r.current.isName = true := by
    have hkind : r.current.token.kind = .name := congrArg Prod.fst hword
    simp [SymbolToken.isName, Token.isName, hkind]
  refine ⟨s, _, (hq.trans hr).trans hs, ?_,
    fun node x hc => hleft _ _ (hop _ _ _ _ _ _ hfloor (.member hname hm) hc)⟩
  rw [SymbolToken.bare_node, hid, hvalue]
  rfl

theorem read_index {object index : Node} (ih₁ : Part.Read ws (.operand .access object))
    (ih₂ : Part.Read vs (.operand .expression index)) :
    Part.Read (ws ++ (.operator, "[") :: (vs ++ [(.operator, "]")]))
      (.operand .access (.plain "[" (.index object index))) := by
  intro p more power hp hw _ hfloor
  simp only [List.append_assoc, List.cons_append, List.nil_append] at hw
  obtain ⟨q, left, hq, rfl, hleft⟩ := ih₁ p _ power hp hw (power_le _) hfloor
  obtain ⟨r, hr, hid, hop⟩ := read_operator hq.stands .index .member hq.words (by decide)
  obtain ⟨s, made, hs, rfl, hindex⟩ := read_closed hr.stands ih₂ hr.words (show "]" ∈ _ by decide)
  obtain ⟨t, u, hm, hu⟩ := hs.stands.expect hs.words
  refine ⟨u, _, ((hq.trans hr).trans hs).trans hu, ?_,
    fun node x hc => hleft _ _ (hop _ _ _ _ _ _ hfloor (.index hindex hm) hc)⟩
  rw [SymbolToken.bare_node, hid]
  rfl

theorem read_call {callee : Node} {nodes : List Node} (hcall : callee.form.isCallable = true)
    (ih₁ : Part.Read ws (.operand .access callee))
    (ih₂ : Part.Read vs (.upTo .round .items nodes [])) :
    Part.Read (ws ++ (.operator, "(") :: vs) (.operand .access (.plain "(" (.call callee nodes))) := by
  intro p more power hp hw _ hfloor
  simp only [List.append_assoc, List.cons_append] at hw
  obtain ⟨q, left, hq, rfl, hleft⟩ := ih₁ p _ power hp hw (power_le _) hfloor
  obtain ⟨r, hr, hid, hop⟩ := read_operator hq.stands .call .call hq.words (by decide)
  obtain ⟨s, made, hs, rfl, hlist⟩ := ih₂ r _ hr.stands hr.words (.nil _)
  refine ⟨s, _, (hq.trans hr).trans hs, ?_, fun node x hc =>
    hleft _ _ (hop _ _ _ _ _ _ hfloor (.call (by simpa using hcall) hlist) hc)⟩
  rw [SymbolToken.bare_node, hid, Form.bare, bareNodes_eq]

theorem read_binary {level : Level} {id : String} {left right : Node} (hid : id ∈ level.operators)
    (ih₁ : Part.Read ws (.operand level left)) (ih₂ : Part.Read vs (.operand level.tighter right)) :
    Part.Read (ws ++ (.operator, id) :: vs) (.operand level (.plain id (.binary left right))) := by
  intro p more power hp hw hceil hfloor
  have hlevel : level ∈ [.product, .sum, .relation] := by
    cases level <;> first | decide | exact absurd hid List.not_mem_nil
  have hop : (id, level.ceiling) ∈ InfixRule.binary.operators :=
    List.mem_flatMap.2 ⟨level, hlevel, List.mem_map.2 ⟨id, hid, rfl⟩⟩
  have hbound : level.floor = level.ceiling ∧ level.ceiling ≤ level.tighter.ceiling ∧
      level.ceiling < level.tighter.floor := by
    have hall : ∀ level ∈ [.product, .sum, .relation], Level.floor level = level.ceiling ∧
        level.ceiling ≤ level.tighter.ceiling ∧ level.ceiling < level.tighter.floor := by
      decide
    exact hall level hlevel
  obtain ⟨hsame, htighter, hbelow⟩ := hbound
  rw [List.append_assoc, List.cons_append] at hw
  obtain ⟨-, -, -, -, hpow⟩ := lookup?_of_operator hop
  obtain ⟨q, made, hq, rfl, hleft⟩ := ih₁ p _ power hp hw (Nat.le_of_eq hpow) hfloor
  obtain ⟨r, hr, hcur, hop⟩ := read_operator hq.stands .binary level.ceiling hq.words hop
  obtain ⟨s, made', hs, rfl, hright⟩ :=
    read_expression hr.stands level.ceiling ih₂ hr.words (Nat.le_trans hceil htighter) hbelow hceil
  refine ⟨s, _, (hq.trans hr).trans hs, ?_,
    fun node x hc => hleft _ _ (hop _ _ _ _ _ _ (hsame ▸ hfloor) (.binary hright) hc)⟩
  rw [SymbolToken.bare_node, hcur]
  rfl

theorem read_logic {id : String} {left right : Node} (hid : id ∈ ["&&", "||"])
    (ih₁ : Part.Read ws (.operand .relation left)) (ih₂ : Part.Read vs (.operand .logic right)) :
    Part.Read (ws ++ (.operator, id) :: vs) (.operand .logic (.plain id (.binary left right))) := by
  intro p more power hp hw hceil hfloor
  have hop : (id, BindingPower.logical) ∈ InfixRule.binaryRight.operators := by
    simpa [InfixRule.operators] using hid
  rw [List.append_assoc, List.cons_append] at hw
  obtain ⟨-, -, -, -, hpow⟩ := lookup?_of_operator hop
  obtain ⟨q, made, hq, rfl, hleft⟩ := ih₁ p _ power hp hw
    (Nat.le_trans (Nat.le_of_eq hpow) (by decide)) (Nat.lt_of_lt_of_le hfloor (by decide))
  obtain ⟨r, hr, hcur, hop⟩ := read_operator hq.stands .binaryRight .logical hq.words hop
  obtain ⟨s, made', hs, rfl, hright⟩ :=
    read_expression hr.stands BindingPower.logical.weaker ih₂ hr.words hceil (by decide) hceil
  refine ⟨s, _, (hq.trans hr).trans hs, ?_,
    fun node x hc => hleft _ _ (hop _ _ _ _ _ _ hfloor (.binaryRight hright) hc)⟩
  rw [SymbolToken.bare_node, hcur]
  rfl

theorem read_ternary {condition consequent alternative : Node}
    (ih₁ : Part.Read ws (.operand .logic condition))
    (ih₂ : Part.Read vs (.operand .expression consequent))
    (ih₃ : Part.Read us (.operand .expression alternative)) :
    Part.Read (ws ++ (.operator, "?") :: (vs ++ (.operator, ":") :: us))
      (.operand .expression (.plain "?" (.ternary condition consequent alternative))) := by
  intro p more power hp hw hceil hfloor
  simp only [List.append_assoc, List.cons_append] at hw
  have hop : ("?", BindingPower.ternary) ∈ InfixRule.ternary.operators := by decide
  obtain ⟨-, -, -, -, hpow⟩ := lookup?_of_operator hop
  obtain ⟨q, made₁, hq, rfl, hleft⟩ := ih₁ p _ power hp hw
    (Nat.le_trans (Nat.le_of_eq hpow) (by decide)) (Nat.lt_of_lt_of_le hfloor (by decide))
  obtain ⟨r, hr, hcur, hop⟩ := read_operator hq.stands .ternary .ternary hq.words hop
  obtain ⟨s, made₂, hs, rfl, h₂⟩ := read_closed hr.stands ih₂ hr.words (show ":" ∈ _ by decide)
  obtain ⟨colon, t, hm, ht⟩ := hs.stands.expect hs.words
  obtain ⟨u, made₃, hu, rfl, h₃⟩ :=
    read_expression ht.stands .none ih₃ ht.words hceil (by decide) hceil
  refine ⟨u, _, (((hq.trans hr).trans hs).trans ht).trans hu, ?_, fun node x hc =>
    hleft _ _ (hop _ _ _ _ _ _ (Nat.lt_of_lt_of_le hfloor (by decide)) (.ternary h₂ hm h₃) hc)⟩
  rw [SymbolToken.bare_node, hcur]
  rfl

theorem read_assignment {id : String} {target value : Node} (hid : id ∈ ["=", "+=", "-="])
    (ht : target.form.isAssignable = true) (ih₁ : Part.Read ws (.operand .access target))
    (ih₂ : Part.Read vs (.operand .expression value)) :
    Part.Read (ws ++ (.operator, id) :: vs)
      (.operand .expression (.plain id (.assignment target value))) := by
  intro p more power hp hw hceil hfloor
  have hop : (id, BindingPower.assignment) ∈ InfixRule.assignment.operators := by
    simpa [InfixRule.operators] using hid
  rw [List.append_assoc, List.cons_append] at hw
  obtain ⟨q, made, hq, rfl, hleft⟩ :=
    ih₁ p _ power hp hw (power_le _) (Nat.lt_of_lt_of_le hfloor (by decide))
  obtain ⟨r, hr, hcur, hop⟩ := read_operator hq.stands .assignment .assignment hq.words hop
  obtain ⟨s, made', hs, rfl, hright⟩ :=
    read_expression hr.stands BindingPower.assignment.weaker ih₂ hr.words hceil (by decide) (Nat.le_trans hceil (by decide))
  refine ⟨s, _, (hq.trans hr).trans hs, ?_, fun node x hc =>
    hleft _ _ (hop _ _ _ _ _ _ hfloor (.assignment (by simpa using ht) hright) hc)⟩
  rw [SymbolToken.bare_node, hcur]
  rfl

/-! ### Lists -/

theorem read_item {node : Node} (ih : Part.Read ws (.operand .expression node)) :
    Part.Read ws (.element .items [node] []) := by
  intro p more hp hw hpow _
  have hpow := Nat.le_of_eq hpow
  obtain ⟨q, made, hq, rfl, hnode⟩ := read_expression hp .none ih hw hpow (by decide) hpow
  exact ⟨q, [made], hq, rfl, .item hnode⟩

theorem read_entry {w : Word} {value : Node} (hw : w.isKey)
    (ih : Part.Read ws (.operand .expression value)) :
    Part.Read (w :: (.operator, ":") :: ws) (.element .entries [value.withKey w.2] []) := by
  intro p more hp hwords hpow _
  have hk : w.1 ≠ .ending := by
    intro hk
    rcases hw with h | h | h <;> cases h.symm.trans hk
  obtain ⟨q, hl, hword, -, hq⟩ := hp.step hwords hk
  have hkey : (p.current.isName || p.current.token.isLiteral) = true := by
    rw [← hword] at hw
    simpa [SymbolToken.isName, Token.isName, Token.isLiteral, Word.isKey, Token.word] using hw
  obtain ⟨colon, r, hm, hr⟩ := hq.stands.expect hq.words
  have hpow := Nat.le_of_eq hpow
  obtain ⟨s, made, hs, rfl, hvalue⟩ := read_expression hr.stands .none ih hr.words hpow (by decide) hpow
  refine ⟨s, _, (hq.trans hr).trans hs, ?_, .entry hkey hl hm hvalue⟩
  rw [List.map_singleton, Node.bare_withKey, ← hword]
  rfl

theorem read_parameter {text : String} :
    Part.Read [(.name, text)] (.element .parameters [.ofName text .start] [text]) := by
  intro p more hp hw _ hf
  obtain ⟨hn, hvalue, q, t, r, hd, hm, hr⟩ := hp.declare hw hf
  refine ⟨r, _, hr, ?_, .parameter hn hd hm⟩
  rw [List.map_singleton, ← hvalue]
  rfl

theorem read_uninitialised {text : String} :
    Part.Read [(.name, text)] (.element .declarations [] [text]) := by
  intro p more hp hw hpow hf
  obtain ⟨hn, -, q, t, r, hd, hm, hr⟩ := hp.declare hw hf
  refine ⟨r, [], hr, rfl, .uninitialised hn hd hm fun he => ?_⟩
  have he : Word.front more = "=" := (hr.stands.id_eq_front hr.words).symm.trans he
  have hop : ("=", BindingPower.assignment) ∈ InfixRule.assignment.operators := by decide
  obtain ⟨-, -, -, -, hassign⟩ := lookup?_of_operator hop
  rw [he, hassign] at hpow
  cases hpow

theorem read_initialised {text : String} {value : Node}
    (ih : Part.Read ws (.operand .expression value)) :
    Part.Read ((.name, text) :: (.operator, "=") :: ws)
      (.element .declarations [.plain "=" (.declaration (.ofName text .start) value)] [text]) := by
  intro p more hp hw hpow hf
  obtain ⟨hn, hvalue, q, t, r, hd, hm, hr⟩ := hp.declare hw hf
  obtain ⟨s, hs, -, hid, hs'⟩ := hr.stands.step hr.words nofun
  have hpow := Nat.le_of_eq hpow
  obtain ⟨u, made, hu, rfl, hmade⟩ := read_expression hs'.stands .none ih hs'.words hpow (by decide) hpow
  refine ⟨u, _, (hr.move hs').move hu, ?_, .initialised hn hd hm hid hs hmade⟩
  rw [List.map_singleton, SymbolToken.bare_node, hid, ← hvalue]
  rfl

theorem read_last {kind : ListKind} {nodes : List Node} {names : List String}
    (ih : Part.Read ws (.element kind nodes names)) : Part.Read ws (.list kind nodes names) := by
  intro p more hp hw hpow hcomma hf
  obtain ⟨q, made, hq, hbare, hmade⟩ := ih p more hp hw hpow hf
  refine ⟨q, made, hq, hbare, .last hmade ?_⟩
  rwa [hq.stands.id_eq_front hq.words]

theorem read_more {kind : ListKind} {nodes rest : List Node} {names others : List String}
    (ih₁ : Part.Read ws (.element kind nodes names)) (ih₂ : Part.Read vs (.list kind rest others)) :
    Part.Read (ws ++ (.operator, ",") :: vs) (.list kind (nodes ++ rest) (names ++ others)) := by
  intro p more hp hw hpow hcomma hf
  rw [List.append_assoc, List.cons_append] at hw
  obtain ⟨q, made, hq, rfl, hmade⟩ := ih₁ p _ hp hw (power_of_closer (show "," ∈ _ by decide)) hf.left
  obtain ⟨comma, r, hm, hr⟩ := hq.stands.expect hq.words
  obtain ⟨s, made', hs, rfl, hmade'⟩ :=
    ih₂ r more hr.stands hr.words hpow hcomma (hf.right (hq.move hr).gains)
  exact ⟨s, made ++ made', (hq.move hr).trans hs, List.map_append,
    .more hmade (expect_eq_ok.1 hm).1 hm hmade'⟩

theorem read_nothing {bracket : Bracket} {kind : ListKind} :
    Part.Read [(.operator, bracket.close)] (.upTo bracket kind [] []) := by
  intro p more hp hw _
  obtain ⟨t, q, hm, hq⟩ := hp.expect hw
  exact ⟨q, [], hq, rfl, .closed (expect_eq_ok.1 hm).1 hm⟩

omit ws vs us in
theorem spelled_of_stands {p : Parser} (hp : p.Stands Word.Readable) :
    p.current.token.word.Spelled := by
  by_cases hk : p.current.token.kind = .ending
  · rw [Token.word, hk]
    trivial
  · exact (hp.rest hk).1.1

theorem read_filled {bracket : Bracket} {kind : ListKind} {nodes : List Node} {names : List String}
    (hd : Derives functions (.list kind nodes names) ws)
    (ih : Part.Read ws (.list kind nodes names)) :
    Part.Read (ws ++ [(.operator, bracket.close)]) (.upTo bracket kind nodes names) := by
  intro p more hp hw hf
  rw [List.append_assoc, List.singleton_append] at hw
  have hne : p.current.id ≠ bracket.close := by
    obtain ⟨w, rest, rfl, hclose⟩ := hd.headed
    have hword : p.current.token.word = w := (List.cons.inj hw).1
    rw [hp.symbol]
    exact hword ▸ hclose (hword ▸ spelled_of_stands hp) bracket
  have hcomma : bracket.close ≠ "," := by cases bracket <;> decide
  obtain ⟨q, made, hq, hbare, hmade⟩ :=
    ih p _ hp hw (power_of_closer bracket.close_mem_closers) hcomma hf
  obtain ⟨t, r, hm, hr⟩ := hq.stands.expect hq.words
  exact ⟨r, made, hq.move hr, hbare, .filled hne hmade hm⟩

theorem read_anonymous : Part.Read [] (.functionName none) := by
  intro p more hp hw _
  have hkind : p.current.token.kind = .operator := congrArg Prod.fst (List.cons.inj hw).1
  refine ⟨p, .refl hp hw, .anonymous ?_⟩
  simp [SymbolToken.isName, Token.isName, hkind]

theorem read_named {text : String} : Part.Read [(.name, text)] (.functionName (some text)) := by
  intro p more hp hw hf
  obtain ⟨hn, hvalue, q, t, r, hd, hm, hr⟩ := hp.declare hw hf
  exact ⟨r, hr, hvalue ▸ .named hn hd hm⟩

/-! ### Statements -/

omit ws vs us in
theorem read_ruled {p : Parser} {more : List Word} (hp : p.Stands Word.Readable)
    (rule : StatementRule) {w : Word} (hw : p.words = w :: more)
    (hsym : w.symbol = rule.id ∧ (w.1 = .name → isKeyword w.2 = true)) :
    ∃ q, p.Reaches [] more q ∧ p.current.id = rule.id ∧ ∀ read r,
      Reads .grammar (.standard .grammar) (.ruled rule p.current read) q r →
      Reads .grammar (.standard .grammar) (.statement read) p r := by
  have hk : w.1 ≠ .ending := by
    intro hk
    obtain ⟨kind, text⟩ := w
    cases hk
    revert hsym
    cases rule <;> exact fun h => absurd h.1 (by decide : ¬endId = _)
  obtain ⟨q, hm, hword, hid, hq⟩ := hp.step hw hk
  obtain ⟨r, hr, hr'⟩ := hq.stands.reserve hq.words (isKeyword_of_word hword hsym.2)
  have hid := hid.trans hsym.1
  exact ⟨r, hq.trans hr', hid, fun read s h => .ruled (statementRule_eq_some.2 hid) hm hr h⟩

omit ws vs us in
theorem read_keyword {p : Parser} {more : List Word} (hp : p.Stands Word.Readable)
    (rule : StatementRule) (hw : p.words = (.name, rule.id) :: more) (hk : rule.id ∈ keywords) :
    ∃ q, p.Reaches [] more q ∧ p.current.id = rule.id ∧ ∀ read r,
      Reads .grammar (.standard .grammar) (.ruled rule p.current read) q r →
      Reads .grammar (.standard .grammar) (.statement read) p r :=
  have hk := isKeyword_of_mem hk
  read_ruled hp rule hw ⟨Word.symbol_of_keyword hk, fun _ => hk⟩

theorem read_expressionStatement {node : Node}
    (hform : (node.form.isAssignment || node.form.isCall) = true)
    (hhead : ∀ w ∈ ws.head?, w.startsStatement = false)
    (hd : Derives functions (.operand .expression node) ws)
    (ih : Part.Read ws (.operand .expression node)) :
    Part.Read (ws ++ [(.operator, ";")]) (.statement (.single node) [] false) := by
  intro p more hp hw _ _ _
  rw [List.append_assoc, List.singleton_append] at hw
  have hrule : (SymbolTable.grammar.lookup? p.current.id).bind (·.statementRule?) = none := by
    obtain ⟨-, w, rest, rfl, -⟩ := hd.headed
    have hword : p.current.token.word = w := (List.cons.inj hw).1
    rw [hp.symbol, hword]
    simpa [Word.startsStatement] using hhead w rfl
  obtain ⟨q, made, hq, rfl, hmade⟩ := read_closed hp ih hw (show ";" ∈ _ by decide)
  obtain ⟨t, r, hm, hr⟩ := hq.stands.expect hq.words
  exact ⟨r, .single made, hq.trans hr, rfl,
    .expressionStatement hrule hmade (by simpa using hform) hm⟩

theorem read_block {p : Parser} {more : List Word} {body : Statements}
    (ih : Part.Read ws (.block body)) (hp : p.Stands Word.Readable) (hw : p.words = ws ++ more) :
    p.current.id = "\x7b" ∧ ∃ q made, p.Reaches [] more q ∧ made.bare = body ∧
      Reads .grammar (.standard .grammar) (.block made) p q := by
  obtain ⟨vs, rfl, ih⟩ := ih
  obtain ⟨t, q, hm, hq⟩ := hp.expect hw
  obtain ⟨r, made, hr, hbare, hmade⟩ := ih q more hq.stands hq.words
  exact ⟨(expect_eq_ok.1 hm).1, r, made, hq.trans hr, hbare, .block hm hmade⟩

theorem read_blockStatement {body : Statements} (ih : Part.Read ws (.block body)) :
    Part.Read ws (.statement
      (if body.isEmpty then .empty else .single (.plain "\x7b" (.block body))) [] false) := by
  intro p more hp hw _ _ _
  obtain ⟨vs, rfl, ih⟩ := ih
  obtain ⟨q, hq, hid, hread⟩ := read_ruled hp .block hw ⟨rfl, nofun⟩
  obtain ⟨r, made, hr, rfl, hmade⟩ := ih q more hq.stands hq.words
  refine ⟨r, _, hq.trans hr, ?_, hread _ _ (.blockStatement hmade)⟩
  rw [Statements.isEmpty_bare]
  split
  · rfl
  · rw [Statements.bare, SymbolToken.bare_node, hid]
    rfl

theorem read_declaration {nodes : List Node} {names : List String}
    (ih : Part.Read ws (.list .declarations nodes names)) :
    Part.Read ((.name, "var") :: (ws ++ [(.operator, ";")]))
      (.statement (.ofList nodes) names false) := by
  intro p more hp hw _ _ hf
  rw [List.cons_append, List.append_assoc] at hw
  obtain ⟨q, hq, -, hread⟩ := read_keyword hp .declaration hw (by decide)
  obtain ⟨r, made, hr, rfl, hmade⟩ := ih q _ hq.stands hq.words
    (power_of_closer (show ";" ∈ _ by decide)) (by decide : ";" ≠ ",") (hf.move hq.gains)
  obtain ⟨t, s, hm, hs⟩ := hr.stands.expect hr.words
  exact ⟨s, .ofList made, (hq.trans hr).move hs, Statements.bare_ofList _,
    hread _ _ (.declaration hmade hm)⟩

theorem read_condition {p : Parser} {more : List Word} {node : Node}
    (ih : Part.Read ws (.operand .expression node)) (hp : p.Stands Word.Readable)
    (hw : p.words = (.operator, "(") :: (ws ++ (.operator, ")") :: more)) :
    ∃ q made, p.Reaches [] more q ∧ made.bare = node ∧
      Reads .grammar (.standard .grammar) (.condition made) p q := by
  obtain ⟨t, q, ho, hq⟩ := hp.expect hw
  obtain ⟨r, made, hr, hbare, hmade⟩ := read_closed hq.stands ih hq.words (show ")" ∈ _ by decide)
  obtain ⟨u, s, hm, hs⟩ := hr.stands.expect hr.words
  exact ⟨s, made, (hq.trans hr).trans hs, hbare, .condition ho hmade hm⟩

theorem read_whileLoop {condition : Node} {body : Statements}
    (ih₁ : Part.Read ws (.operand .expression condition)) (ih₂ : Part.Read vs (.block body)) :
    Part.Read ((.name, "while") :: (.operator, "(") :: (ws ++ (.operator, ")") :: vs))
      (.statement (.single (.plain "while" (.whileLoop condition body))) [] false) := by
  intro p more hp hw _ _ _
  simp only [List.cons_append, List.append_assoc] at hw
  obtain ⟨q, hq, hid, hread⟩ := read_keyword hp .whileLoop hw (by decide)
  obtain ⟨r, made, hr, rfl, hmade⟩ := read_condition ih₁ hq.stands hq.words
  obtain ⟨-, s, made', hs, rfl, hmade'⟩ := read_block ih₂ hr.stands hr.words
  refine ⟨s, _, (hq.trans hr).trans hs, ?_, hread _ _ (.whileLoop hmade hmade')⟩
  rw [Statements.bare, SymbolToken.bare_node, hid]
  rfl

theorem read_conditional {condition : Node} {consequent alternative : Statements}
    (ih₁ : Part.Read ws (.operand .expression condition)) (ih₂ : Part.Read vs (.block consequent))
    (ih₃ : Part.Read us (.alternative alternative)) :
    Part.Read ((.name, "if") :: (.operator, "(") :: (ws ++ (.operator, ")") :: (vs ++ us)))
      (.conditional (.plain "if" (.ifElse condition consequent alternative))) := by
  intro p more hp hw helse
  simp only [List.cons_append, List.append_assoc] at hw
  obtain ⟨q, hq, hid, hread⟩ := read_keyword hp .ifElse hw (by decide)
  obtain ⟨r, made₁, hr, rfl, h₁⟩ := read_condition ih₁ hq.stands hq.words
  obtain ⟨-, s, made₂, hs, rfl, h₂⟩ := read_block ih₂ hr.stands hr.words
  obtain ⟨u, made₃, hu, rfl, h₃⟩ := ih₃ s more hs.stands hs.words helse
  refine ⟨u, _, ((hq.trans hr).trans hs).trans hu, ?_, hread _ _ (.ifElse h₁ h₂ h₃)⟩
  rw [SymbolToken.bare_node, hid]
  rfl

theorem read_ifElse {node : Node} (ih : Part.Read ws (.conditional node)) :
    Part.Read ws (.statement (.single node) [] false) := by
  intro p more hp hw _ helse _
  obtain ⟨q, made, hq, rfl, hmade⟩ := ih p more hp hw helse
  exact ⟨q, .single made, hq, rfl, hmade⟩

theorem read_breakOut : Part.Read [(.name, "break"), (.operator, ";")]
    (.statement (.single (.plain "break" .breakOut)) [] true) := by
  intro p more hp hw hends _ _
  obtain ⟨q, hq, hid, hread⟩ := read_keyword hp .breakOut hw (by decide)
  obtain ⟨t, r, hm, hr⟩ := hq.stands.expect hq.words
  have hend : r.current.id = "\x7d" := (hr.stands.id_eq_front hr.words).trans (hends rfl)
  refine ⟨r, _, hq.trans hr, ?_, hread _ _ (.breakOut hm hend)⟩
  rw [Statements.bare, SymbolToken.bare_node, hid]
  rfl

theorem read_returnNothing : Part.Read [(.name, "return"), (.operator, ";")]
    (.statement (.single (.plain "return" (.returnWith none))) [] true) := by
  intro p more hp hw hends _ _
  obtain ⟨q, hq, hid, hread⟩ := read_keyword hp .returnWith hw (by decide)
  obtain ⟨t, r, hm, hr⟩ := hq.stands.expect hq.words
  have hend : r.current.id = "\x7d" := (hr.stands.id_eq_front hr.words).trans (hends rfl)
  refine ⟨r, _, hq.trans hr, ?_, hread _ _ (.returnNothing (expect_eq_ok.1 hm).1 hm hend)⟩
  rw [Statements.bare, SymbolToken.bare_node, hid]
  rfl

theorem read_returnValue {value : Node} (hd : Derives functions (.operand .expression value) ws)
    (ih : Part.Read ws (.operand .expression value)) :
    Part.Read ((.name, "return") :: (ws ++ [(.operator, ";")]))
      (.statement (.single (.plain "return" (.returnWith (some value)))) [] true) := by
  intro p more hp hw hends _ _
  rw [List.cons_append, List.append_assoc, List.singleton_append] at hw
  obtain ⟨q, hq, hid, hread⟩ := read_keyword hp .returnWith hw (by decide)
  have hne : q.current.id ≠ ";" := by
    obtain ⟨rule, w, rest, rfl, hr⟩ := hd.headed
    rw [hq.stands.id_eq_front hq.words]
    exact fun h : w.symbol = ";" => PrefixRule.not_mem_of_mem hr (by rw [h]; decide)
  obtain ⟨r, made, hr, rfl, hmade⟩ := read_closed hq.stands ih hq.words (show ";" ∈ _ by decide)
  obtain ⟨t, s, hm, hs⟩ := hr.stands.expect hr.words
  have hend : s.current.id = "\x7d" := (hs.stands.id_eq_front hs.words).trans (hends rfl)
  refine ⟨s, _, (hq.trans hr).trans hs, ?_, hread _ _ (.returnValue hne hmade hm hend)⟩
  rw [Statements.bare, SymbolToken.bare_node, hid]
  rfl

theorem read_noAlternative : Part.Read [] (.alternative .empty) := by
  intro p more hp hw helse
  refine ⟨p, .empty, .refl hp hw, rfl, .noAlternative ?_⟩
  rwa [hp.id_eq_front hw]

omit ws vs us in
theorem read_else {p : Parser} {more : List Word} (hp : p.Stands Word.Readable)
    (hw : p.words = (.name, "else") :: more) :
    ∃ q r t, p.Reaches [] more r ∧ p.current.id = "else" ∧
      (standard .grammar).reserve p.current p = (.ok (), q) ∧
      (standard .grammar).expect "else" q = (.ok t, r) := by
  have hk : isKeyword "else" = true := isKeyword_of_mem (by decide)
  have hsym := Word.symbol_of_keyword hk
  have hword : p.current.token.word = (.name, "else") := (List.cons.inj hw).1
  obtain ⟨q, hr, hq⟩ := hp.reserve hw (isKeyword_of_word hword fun _ => hk)
  obtain ⟨r, hm, -, hid, hr'⟩ := hq.stands.step hq.words nofun
  refine ⟨q, r, _, hq.trans hr', ?_, hr, expect_eq_ok.2 ⟨hid.trans hsym, hm⟩⟩
  rw [hp.symbol, hword, hsym]

theorem read_elseIf {node : Node} (hd : Derives functions (.conditional node) ws)
    (ih : Part.Read ws (.conditional node)) :
    Part.Read ((.name, "else") :: ws) (.alternative (.single node)) := by
  intro p more hp hw helse
  obtain ⟨q, r, t, hr, hid, hres, hm⟩ := read_else hp hw
  have hif : r.current.id = "if" := by
    obtain ⟨rest, rfl⟩ := hd.headed
    rw [hr.stands.id_eq_front hr.words]
    exact Word.symbol_of_keyword (isKeyword_of_mem (by decide : "if" ∈ keywords))
  obtain ⟨s, made, hs, rfl, hmade⟩ := ih r more hr.stands hr.words helse
  exact ⟨s, .single made, hr.trans hs, rfl, .elseIf hid hres hm hif hmade⟩

theorem read_elseBlock {body : Statements} (ih : Part.Read ws (.block body)) :
    Part.Read ((.name, "else") :: ws) (.alternative body) := by
  intro p more hp hw _
  obtain ⟨q, r, t, hr, hid, hres, hm⟩ := read_else hp hw
  obtain ⟨hbrace, s, made, hs, hbare, hmade⟩ := read_block ih hr.stands hr.words
  exact ⟨s, made, hr.trans hs, hbare, .elseBlock hid hres hm (by rw [hbrace]; decide) hmade⟩

theorem read_done : Part.Read [] (.statements [] [] false) := by
  intro p more hp hw hend _
  refine ⟨p, [], .refl hp hw, rfl, .done ?_⟩
  rw [hp.id_eq_front hw]
  exact hend.imp id And.left

theorem read_next {read : Statements} {rest : List Node} {names others : List String} {ends : Bool}
    (hd₁ : Derives functions (.statement read names false) ws)
    (hd₂ : Derives functions (.statements rest others ends) vs)
    (ih₁ : Part.Read ws (.statement read names false))
    (ih₂ : Part.Read vs (.statements rest others ends)) :
    Part.Read (ws ++ vs) (.statements (read.toList ++ rest) (names ++ others) ends) := by
  intro p more hp hw hend hf
  rw [List.append_assoc] at hw
  obtain ⟨w, tail, rfl, hhead⟩ := hd₁.headed
  have helse : Word.front (vs ++ more) ≠ "else" := by
    cases vs with
    | nil =>
      rcases hend with h | ⟨h, -⟩
      · exact h ▸ by decide
      · exact h ▸ by decide
    | cons v vs => exact fun h => hd₂.headed v rfl (by rw [show v.symbol = "else" from h]; decide)
  obtain ⟨q, made, hq, rfl, hmade⟩ := ih₁ p _ hp hw nofun helse hf.left
  obtain ⟨r, made', hr, rfl, hmade'⟩ := ih₂ q more hq.stands hq.words hend (hf.right hq.gains)
  refine ⟨r, made.toList ++ made', hq.trans hr, ?_, .next ?_ hmade hmade'⟩
  · rw [List.map_append, Statements.toList_bare]
  · rw [hp.id_eq_front hw]
    rintro (h | h)
    · exact hhead (by rw [show w.symbol = "\x7d" from h]; decide)
    · exact hhead (by rw [show w.symbol = endId from h]; decide)

theorem read_final {read : Statements} {names : List String}
    (hd : Derives functions (.statement read names true) ws)
    (ih : Part.Read ws (.statement read names true)) :
    Part.Read ws (.statements read.toList names true) := by
  intro p more hp hw hend hf
  have hend : Word.front more = "\x7d" := hend.resolve_right nofun
  obtain ⟨w, tail, rfl, hhead⟩ := hd.headed
  obtain ⟨q, made, hq, rfl, hmade⟩ := ih p more hp hw (fun _ => hend) (hend ▸ by decide) hf
  have hdone : Reads .grammar (.standard .grammar) (.statements []) q q :=
    .done (.inl ((hq.stands.id_eq_front hq.words).trans hend))
  refine ⟨q, made.toList ++ [], hq, ?_, .next ?_ hmade hdone⟩
  · rw [List.append_nil, Statements.toList_bare]
  · rw [hp.id_eq_front hw]
    rintro (h | h)
    · exact hhead (by rw [show w.symbol = "\x7d" from h]; decide)
    · exact hhead (by rw [show w.symbol = endId from h]; decide)

theorem read_blockBody {nodes : List Node} {names : List String} {ends : Bool}
    (hk : ∀ x ∈ names, isKeyword x = false) (hn : names.Nodup)
    (ih : Part.Read ws (.statements nodes names ends)) :
    Part.Read ((.operator, "\x7b") :: (ws ++ [(.operator, "\x7d")])) (.block (.ofList nodes)) := by
  refine ⟨_, rfl, fun p more hp hw => ?_⟩
  rw [List.append_assoc, List.singleton_append] at hw
  obtain ⟨q, ho, hq, hwords, hpush⟩ := read_openScope hp hw
  obtain ⟨r, made, hr, rfl, hmade⟩ := ih q _ hq hwords (.inl rfl) (hpush ▸ .push _ hn hk)
  obtain ⟨t, s, hm, hs⟩ :=
    read_scopeEnd ho (frames_of_reads (.refl _) hmade) hr.stands hr.words
  exact ⟨s, .ofList made, hs, Statements.bare_ofList _, .blockBody ho hmade hm⟩

end

/-- **What is derived is read**, as the tree that it is derived from. -/
theorem read_of_derives {functions : Prop} {part : Part} {ws : List Word}
    (h : Derives functions part ws) : part.Read ws := by
  induction h with
  | name hk => exact read_name hk
  | number hn => exact read_number hn
  | string => exact read_string
  | self => exact read_self
  | constant hid => exact read_constant hid
  | array _ ih => exact read_array ih
  | object _ ih => exact read_object ih
  | group _ ih => exact read_group ih
  | function _ hd₁ hd₂ hd₃ hn ih₁ ih₂ ih₃ =>
    refine read_function (fun x hx => ?_) hn ih₁ ih₂ ih₃
    rcases List.mem_append.1 hx with hx | hx
    · exact hd₁.not_isKeyword x hx
    · exact (List.mem_append.1 hx).elim (hd₂.not_isKeyword x) (hd₃.not_isKeyword x)
  | raise _ ih => exact read_raise ih
  | member _ ih => exact read_member ih
  | index _ _ ih₁ ih₂ => exact read_index ih₁ ih₂
  | call hc _ _ ih₁ ih₂ => exact read_call hc ih₁ ih₂
  | unary hw _ ih => exact read_unary hw ih
  | binary hid _ _ ih₁ ih₂ => exact read_binary hid ih₁ ih₂
  | logic hid _ _ ih₁ ih₂ => exact read_logic hid ih₁ ih₂
  | ternary _ _ _ ih₁ ih₂ ih₃ => exact read_ternary ih₁ ih₂ ih₃
  | assignment hid ht _ _ ih₁ ih₂ => exact read_assignment hid ht ih₁ ih₂
  | item _ ih => exact read_item ih
  | entry hw _ ih => exact read_entry hw ih
  | parameter => exact read_parameter
  | uninitialised => exact read_uninitialised
  | initialised _ _ ih => exact read_initialised ih
  | last _ ih => exact read_last ih
  | more _ _ ih₁ ih₂ => exact read_more ih₁ ih₂
  | closed => exact read_nothing
  | filled hd ih => exact read_filled hd ih
  | anonymous => exact read_anonymous
  | named => exact read_named
  | expressionStatement hform hhead hd ih => exact read_expressionStatement hform hhead hd ih
  | blockStatement _ ih => exact read_blockStatement ih
  | declaration _ ih => exact read_declaration ih
  | whileLoop _ _ ih₁ ih₂ => exact read_whileLoop ih₁ ih₂
  | ifElse _ ih => exact read_ifElse ih
  | breakOut => exact read_breakOut
  | returnNothing => exact read_returnNothing
  | returnValue hd ih => exact read_returnValue hd ih
  | conditional _ _ _ ih₁ ih₂ ih₃ => exact read_conditional ih₁ ih₂ ih₃
  | noAlternative => exact read_noAlternative
  | elseIf hd ih => exact read_elseIf hd ih
  | elseBlock _ ih => exact read_elseBlock ih
  | done => exact read_done
  | next hd₁ hd₂ ih₁ ih₂ => exact read_next hd₁ hd₂ ih₁ ih₂
  | final hd ih => exact read_final hd ih
  | block hd hn ih => exact read_blockBody hd.not_isKeyword hn ih

end ScriptTree
