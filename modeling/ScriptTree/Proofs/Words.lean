import ScriptTree.Proofs.Frames
import ScriptTree.Proofs.Slices

/-!
# Words

A word is a token without its position. As long as no word of the grammar is declared as a variable,
a word alone decides the symbol that it is read as; `Parser.Stands` keeps that up along a parse, and
tells the words that lie ahead.
-/

namespace ScriptTree

abbrev Word := TokenKind × String

def Token.word (t : Token) : Word := (t.kind, t.value)

def isKeyword (name : String) : Bool := SymbolTable.grammar.contains name

def keywords : List String :=
  ["this", "true", "false", "null", "pi", "typeof", "function", "var", "while", "if", "else",
    "break", "return"]

theorem isKeyword_of_mem {text : String} (h : text ∈ keywords) : isKeyword text = true := by
  have hall : ∀ text ∈ keywords, isKeyword text = true := by decide +kernel
  exact hall text h

namespace Word

def ending : Word := (.ending, endId)

/-- The symbol that a word is read as, if no word of the grammar is declared as a variable. -/
def symbol : Word → String
  | (.name, text) => if isKeyword text then text else nameId
  | (.operator, text) => text
  | (.string, _) | (.number, _) => literalId
  | (.ending, _) => endId

theorem symbol_of_name {text : String} (hk : isKeyword text = false) :
    symbol (.name, text) = nameId := by
  rw [symbol, hk]
  rfl

theorem symbol_of_keyword {text : String} (hk : isKeyword text = true) :
    symbol (.name, text) = text := by
  rw [symbol, hk]
  rfl

def Known (w : Word) : Prop := w.1 = .operator → SymbolTable.grammar.contains w.2 = true

/-- A name is spelled as names are, a number as numerals are, and an operator not as the names of the
symbols that stand for many words. -/
def Spelled : Word → Prop
  | (.name, text) => ∃ c rest, text.toList = c :: rest ∧ Piece.isNameStart c = true ∧
      ∀ d ∈ rest, Piece.isNameChar d = true
  | (.operator, text) => ∃ c rest, text.toList = c :: rest ∧ Piece.isNameStart c = false ∧
      (c = '(' → rest = [])
  | (.number, text) => Piece.IsNumeral text.toList
  | _ => True

def Ended (good : Word → Prop) (words : List Word) : Prop :=
  ∃ ws, words = ws ++ [ending] ∧ ∀ w ∈ ws, w.1 ≠ .ending ∧ good w

def isOperator (id : String) : Bool :=
  id != nameId && id != literalId && id != endId && !(id.toList.headD ' ' |> Piece.isNameStart)

theorem spelled_of_fits {kind : TokenKind} {value : String} {text after : List Char}
    (h : Piece.Fits .standard (.lexeme kind value text) after) : Spelled (kind, value) := by
  cases h with
  | name hc hall _ => exact ⟨_, _, String.toList_ofList, hc, hall⟩
  | number hnumeral _ =>
    rw [Spelled, String.toList_ofList]
    exact hnumeral
  | string => trivial
  | operator hc hfirst =>
    refine ⟨_, _, String.toList_ofList, hc.2.1, ?_⟩
    rintro rfl
    exact absurd hfirst (by decide)
  | single hc => exact ⟨_, [], String.toList_ofList, hc.2.1, fun _ => rfl⟩

theorem spelled_of_tiled {pieces : List Piece} (h : Piece.Tiled .standard pieces) :
    ∀ before, ∀ t ∈ Piece.tokensBehind before pieces, Spelled t.word := by
  induction h with
  | nil =>
    intro before t ht
    cases ht
  | @cons piece pieces _ hfits _ ih =>
    intro before t ht
    cases piece with
    | gap text => exact ih _ t ht
    | lexeme kind value text =>
      rcases List.mem_cons.1 ht with rfl | ht
      · exact spelled_of_fits hfits
      · exact ih _ t ht

section
variable {w : Word} {id : String}

theorem eq_of_symbol_operator (hs : Spelled w) (h : w.symbol = id) (hid : isOperator id = true) :
    w = (.operator, id) := by
  subst h
  obtain ⟨kind, text⟩ := w
  cases kind with
  | operator => rfl
  | name =>
    obtain ⟨c, rest, htext, hc, -⟩ := hs
    simp only [symbol] at hid
    split at hid
    · simp [isOperator, htext, hc] at hid
    · exact absurd hid (by decide)
  | _ => simp [symbol, isOperator] at hid

/-- A word that is read as a keyword of the grammar is this keyword. -/
theorem eq_of_symbol_keyword (hs : Spelled w) (h : w.symbol = id)
    (hid : Piece.isNameStart (id.toList.headD ' ') = true) : w = (.name, id) := by
  subst h
  obtain ⟨kind, text⟩ := w
  cases kind with
  | operator =>
    obtain ⟨c, rest, htext, hc, -⟩ := hs
    simp [symbol, htext, hc] at hid
  | name =>
    simp only [symbol] at hid ⊢
    split
    · rfl
    · rw [if_neg ‹_›] at hid
      exact absurd hid (by decide)
  | _ =>
    simp only [symbol] at hid
    exact absurd hid (by decide)

theorem eq_of_symbol_name (hs : Spelled w) (h : w.symbol = nameId) :
    ∃ text, w = (.name, text) ∧ isKeyword text = false := by
  obtain ⟨kind, text⟩ := w
  cases kind with
  | operator =>
    obtain ⟨c, rest, htext, -, hpar⟩ := hs
    rw [show text = nameId from h] at htext
    cases htext
    exact absurd (hpar rfl) (by decide)
  | name =>
    refine ⟨text, rfl, ?_⟩
    simp only [symbol] at h
    split at h
    · obtain ⟨c, rest, htext, hc, -⟩ := hs
      rw [h] at htext
      cases htext
      exact absurd hc (by decide)
    · exact Bool.eq_false_iff.2 ‹_›
  | string | number => exact absurd h (by decide : literalId ≠ nameId)
  | ending => exact absurd h (by decide : endId ≠ nameId)

theorem kind_of_symbol_ending (hs : Spelled w) (h : w.symbol = endId) : w.1 = .ending := by
  obtain ⟨kind, text⟩ := w
  cases kind with
  | operator =>
    obtain ⟨c, rest, htext, -, hpar⟩ := hs
    rw [show text = endId from h] at htext
    cases htext
    exact absurd (hpar rfl) (by decide)
  | name =>
    simp only [symbol] at h
    split at h
    · obtain ⟨c, rest, htext, hc, -⟩ := hs
      rw [h] at htext
      cases htext
      exact absurd hc (by decide)
    · exact absurd h (by decide : nameId ≠ endId)
  | string | number => exact absurd h (by decide : literalId ≠ endId)
  | ending => rfl

theorem eq_of_symbol_literal (hs : Spelled w) (h : w.symbol = literalId) :
    w.1 = .string ∨ w.1 = .number := by
  obtain ⟨kind, text⟩ := w
  cases kind with
  | operator =>
    obtain ⟨c, rest, htext, -, hpar⟩ := hs
    rw [show text = literalId from h] at htext
    cases htext
    exact absurd (hpar rfl) (by decide)
  | name =>
    simp only [symbol] at h
    split at h
    · obtain ⟨c, rest, htext, hc, -⟩ := hs
      rw [h] at htext
      cases htext
      exact absurd hc (by decide)
    · exact absurd h (by decide : nameId ≠ literalId)
  | string => exact .inl rfl
  | number => exact .inr rfl
  | ending => exact absurd h (by decide : endId ≠ literalId)

end

end Word

/-! ## Scopes that leave the grammar alone -/

namespace ScopeChain

def KeepsKeywords (c : ScopeChain) : Prop :=
  ∀ scope ∈ c.toList, ∀ name known, scope.lookup? name = some known → isKeyword name = true →
    known.isReserved = true

/-- The innermost scope knows no more than before, but for words of the grammar and these names. -/
def Gains (names : List String) (c d : ScopeChain) : Prop :=
  ∀ name, isKeyword name = false → name ∉ names → d.current.lookup? name = c.current.lookup? name

theorem keeps_empty : empty.KeepsKeywords := by
  intro scope hs name known hk
  rw [List.mem_singleton.1 hs] at hk
  cases hk

section
variable {c d e : ScopeChain}

theorem KeepsKeywords.push (h : c.KeepsKeywords) : c.push.KeepsKeywords := by
  intro scope hs name known hk
  rcases List.mem_cons.1 hs with rfl | hs
  · cases hk
  · exact h scope hs name known hk

theorem KeepsKeywords.pop (h : c.KeepsKeywords) : c.pop.KeepsKeywords := by
  intro scope hs
  refine h scope ?_
  rcases List.mem_append.1 hs with hs | hs
  · exact List.mem_append_left _ (List.mem_of_mem_tail hs)
  · exact List.mem_append_right _ hs

theorem mem_toList_insert {name : String} {known : Definition} {scope : Scope}
    (h : scope ∈ (c.insert name known).toList) :
    scope ∈ c.toList ∨ ∃ old ∈ c.toList, scope = old.insert name known := by
  unfold insert toList at h
  cases hn : c.nested with
  | nil =>
    rw [hn] at h
    exact .inr ⟨c.global, by simp [toList], by simpa using h⟩
  | cons inner outer =>
    rw [hn] at h
    rcases List.mem_cons.1 h with rfl | h
    · exact .inr ⟨inner, by simp [toList, hn], rfl⟩
    · exact .inl (by simpa [toList, hn] using .inr (by simpa using h))

theorem KeepsKeywords.insert {name : String} {known : Definition} (h : c.KeepsKeywords)
    (hk : isKeyword name = true → known.isReserved = true) : (c.insert name known).KeepsKeywords := by
  intro scope hs other found hf hother
  rcases mem_toList_insert hs with hs | ⟨old, hold, rfl⟩
  · exact h scope hs other found hf hother
  · rw [Scope.lookup?_insert] at hf
    split at hf
    · rename_i heq
      cases hf
      exact hk (heq ▸ hother)
    · exact h old hold other found hf hother

theorem KeepsKeywords.reserve {node : Node} (h : c.KeepsKeywords) (hr : c.reserve node = .ok d) :
    d.KeepsKeywords := by
  obtain rfl | ⟨name, -, -, rfl⟩ := reserve_eq_ok hr
  · exact h
  · exact h.insert fun _ => rfl

/-- A word of the grammar is read as itself, every other name as a name. -/
theorem resolve_of_keeps (h : c.KeepsKeywords) (name : String) :
    c.resolve .grammar name = if isKeyword name then name else nameId := by
  unfold resolve
  cases hk : isKeyword name with
  | false => simp [show SymbolTable.grammar.contains name = false from hk]
  | true =>
    have hall : (c.lookup? name).all (·.isReserved) = true := by
      cases hl : c.lookup? name with
      | none => rfl
      | some known =>
        obtain ⟨scope, hs, hf⟩ := List.exists_of_findSome?_eq_some hl
        exact h scope hs name known hf hk
    simp [show SymbolTable.grammar.contains name = true from hk, hall]

theorem current_mem_toList (c : ScopeChain) : c.current ∈ c.toList := by
  unfold current toList
  cases c.nested <;> simp

theorem lookup?_of_current {name : String} {known : Definition}
    (h : c.current.lookup? name = some known) : c.lookup? name = some known := by
  unfold current at h
  unfold lookup? toList
  cases hn : c.nested <;> simp_all

theorem Gains.refl (c : ScopeChain) : c.Gains [] c := fun _ _ _ => rfl

theorem Gains.trans {names more : List String} (h : c.Gains names d) (h' : d.Gains more e) :
    c.Gains (names ++ more) e := by
  intro name hk hn
  rw [List.mem_append, not_or] at hn
  exact (h' name hk hn.2).trans (h name hk hn.1)

theorem reserve_of_keeps {name : String} (position : Position) (h : c.KeepsKeywords)
    (hk : isKeyword name = true) :
    ∃ d, c.reserve (.ofName name position) = .ok d ∧ c.Gains [] d := by
  have hform : (Node.ofName name position).form = .name name := rfl
  unfold reserve
  simp only [hform]
  split
  · exact ⟨c, rfl, .refl c⟩
  · rename_i hr
    cases hl : c.current.lookup? name with
    | some known =>
      have hres := h _ (current_mem_toList c) name known hl hk
      exact absurd (by simp [isReserved, lookup?_of_current hl, hres]) hr
    | none =>
      refine ⟨_, rfl, fun other hother _ => ?_⟩
      have hne : other ≠ name := fun heq => by simp [heq, hk] at hother
      rw [current_insert, Scope.lookup?_insert, if_neg hne]

theorem define_of_free {name : String} (position : Position)
    (h : c.current.lookup? name = none) :
    ∃ known, c.define (.ofName name position) = .ok (c.insert name known) := by
  have hform : (Node.ofName name position).form = .name name := rfl
  unfold define
  simp only [hform, h]
  exact ⟨_, rfl⟩

theorem gains_insert (name : String) (known : Definition) : c.Gains [name] (c.insert name known) := by
  intro other _ hne
  rw [current_insert, Scope.lookup?_insert, if_neg (by simpa using hne)]

end

end ScopeChain

/-! ## Parsers that read words -/

namespace Parser

def words (p : Parser) : List Word := p.current.token.word :: p.unread.map Token.word

/-- The words ahead are such ones up to the end of the script, and the current one is read as it is
meant. -/
structure Stands (good : Word → Prop) (p : Parser) : Prop where
  symbol : p.current.id = p.current.token.word.symbol
  scopes : p.scopes.KeepsKeywords
  ahead : Word.Ended good p.words

section
variable {good : Word → Prop} {p q : Parser} {t : SymbolToken}

theorem Stands.kind_of_id (h : p.Stands good) (hid : p.current.id ≠ endId) :
    p.current.token.kind ≠ .ending := by
  intro hk
  refine hid ?_
  rw [h.symbol, Token.word, hk]
  rfl

theorem Stands.rest (h : p.Stands good) (hk : p.current.token.kind ≠ .ending) :
    good p.current.token.word ∧ Word.Ended good (p.unread.map Token.word) := by
  obtain ⟨ws, hw, hgood⟩ := h.ahead
  cases ws with
  | nil =>
    rw [words, List.nil_append] at hw
    exact absurd (congrArg Prod.fst (List.cons.inj hw).1) hk
  | cons w ws =>
    rw [words, List.cons_append] at hw
    obtain ⟨rfl, hrest⟩ := List.cons.inj hw
    exact ⟨(hgood _ (List.mem_cons_self ..)).2, ws, hrest,
      fun v hv => hgood v (List.mem_cons_of_mem _ hv)⟩

end

/-! ## Moving over a word -/

theorem symbol_of_classify {scopes : ScopeChain} {isLast : Bool} {token : Token} {id : String}
    (hs : scopes.KeepsKeywords) (h : classify .grammar scopes isLast token = .ok id) :
    id = token.word.symbol := by
  unfold classify at h
  unfold Token.word Word.symbol
  cases hk : token.kind with
  | name =>
    simp only [hk] at h
    cases h
    exact ScopeChain.resolve_of_keeps hs token.value
  | operator =>
    simp only [hk] at h
    split at h
    · cases h; rfl
    · cases h
  | string | number =>
    simp only [hk] at h
    cases h
    rfl
  | ending =>
    simp only [hk] at h
    split at h
    · cases h; rfl
    · cases h

theorem classify_of_known {isLast : Bool} {token : Token} (scopes : ScopeChain)
    (h : token.word.Known) (hl : token.kind = .ending → isLast = true) :
    ∃ id, classify .grammar scopes isLast token = .ok id := by
  unfold classify
  cases hk : token.kind with
  | operator => exact ⟨_, if_pos (h hk)⟩
  | ending => exact ⟨_, if_pos (hl hk)⟩
  | _ => exact ⟨_, rfl⟩

section
variable {good : Word → Prop} {p q : Parser} {t : SymbolToken}

theorem stands_of_moveOn (hs : p.scopes.KeepsKeywords)
    (ha : Word.Ended good (p.unread.map Token.word))
    (h : Actions.moveOn .grammar p = (.ok t, q)) :
    q.Stands good ∧ q.words = p.unread.map Token.word ∧ q.scopes = p.scopes := by
  obtain ⟨-, ⟨hu, rfl⟩ | ⟨token, rest, id, hu, hc, rfl⟩⟩ := moveOn_eq_ok h
  · rw [hu] at ha
    obtain ⟨ws, hw, -⟩ := ha
    exact absurd hw (by simp)
  · rw [hu] at ha ⊢
    exact ⟨⟨symbol_of_classify hs hc, hs, ha⟩, rfl, rfl⟩

theorem moveOn_of_known (hknown : ∀ w, good w → w.Known)
    (ha : Word.Ended good (p.unread.map Token.word)) :
    ∃ q, Actions.moveOn .grammar p = (.ok p.current, q) := by
  obtain ⟨ws, hw, hgood⟩ := ha
  unfold Actions.moveOn
  cases hu : p.unread with
  | nil =>
    rw [hu] at hw
    exact absurd hw (by simp)
  | cons token unread =>
    rw [hu] at hw
    have hid : ∃ id, classify .grammar p.scopes unread.isEmpty token = .ok id := by
      cases ws with
      | nil =>
        obtain ⟨hw, hrest⟩ := List.cons.inj hw
        refine classify_of_known _ ?_ fun _ => by simpa using hrest
        rw [hw]
        exact fun hk => nomatch hk
      | cons w ws =>
        obtain ⟨rfl, -⟩ := List.cons.inj hw
        have hw := hgood _ (List.mem_cons_self ..)
        exact classify_of_known _ (hknown _ hw.2) fun hk => absurd hk hw.1
    obtain ⟨id, hid⟩ := hid
    simp only [hid]
    exact ⟨_, rfl⟩

theorem Stands.moved (h : p.Stands good) (hm : Actions.moveOn .grammar p = (.ok t, q))
    (hk : p.current.token.kind ≠ .ending) :
    t = p.current ∧ good t.token.word ∧ t.id = t.token.word.symbol ∧
      p.words = t.token.word :: q.words ∧ q.Stands good ∧ q.scopes = p.scopes := by
  obtain ⟨hgood, hrest⟩ := h.rest hk
  obtain ⟨hq, hw, hs⟩ := stands_of_moveOn h.scopes hrest hm
  obtain rfl := current_of_moveOn hm
  exact ⟨rfl, hgood, h.symbol, by rw [hw, words], hq, hs⟩

theorem Stands.move {w : Word} {more : List Word} (hknown : ∀ w, good w → w.Known)
    (h : p.Stands good) (hw : p.words = w :: more) (hk : w.1 ≠ .ending) :
    ∃ q, Actions.moveOn .grammar p = (.ok p.current, q) ∧ p.current.token.word = w ∧
      p.current.id = w.symbol ∧ q.Stands good ∧ q.words = more ∧ q.scopes = p.scopes := by
  obtain ⟨rfl, rfl⟩ := List.cons.inj hw
  obtain ⟨-, hrest⟩ := h.rest hk
  obtain ⟨q, hm⟩ := moveOn_of_known hknown hrest
  obtain ⟨hq, hwords, hs⟩ := stands_of_moveOn h.scopes hrest hm
  exact ⟨q, hm, rfl, h.symbol, hq, hwords, hs⟩

theorem Stands.words_of_end (hspelled : ∀ w, good w → w.Spelled) (h : p.Stands good)
    (hid : p.current.id = endId) : p.words = [Word.ending] := by
  obtain ⟨ws, hw, hgood⟩ := h.ahead
  cases ws with
  | nil => exact hw
  | cons w ws =>
    have hword : p.current.token.word = w := (List.cons.inj hw).1
    have hw := hgood w (List.mem_cons_self ..)
    refine absurd (Word.kind_of_symbol_ending (hspelled w hw.2) ?_) hw.1
    rw [← hword, ← h.symbol, hid]

theorem Stands.expect_end {act : Actions} (ha : act.advance = Actions.moveOn .grammar)
    (h : p.Stands good) (hw : p.words = [Word.ending]) :
    ∃ t q, act.expect endId p = (.ok t, q) := by
  obtain ⟨hword, hu⟩ := List.cons.inj hw
  have hm : Actions.moveOn .grammar p = (.ok p.current,
      { p with current := ⟨endId, Token.ending p.finish⟩, moves := p.moves + 1 }) := by
    rw [Actions.moveOn, List.map_eq_nil_iff.1 hu]
  exact ⟨_, _, Actions.expect_eq_ok.2 ⟨by rw [h.symbol, hword]; rfl, ha ▸ hm⟩⟩

end

/-! ## Fronts of scripts -/

/-- The tokens of a script are words that are spelled as such, and the end. -/
theorem words_of_tokensOf {script : String} {tokens : List Token}
    (h : tokensOf .standard script = .ok tokens) :
    Word.Ended Word.Spelled (tokens.map Token.word) := by
  obtain ⟨pieces, htiled, -, rfl⟩ := tiled_of_tokensOf h
  have hkind := Piece.kind_ne_ending_of_tiled htiled []
  refine ⟨_, List.map_append, fun w hw => ?_⟩
  obtain ⟨t, ht, rfl⟩ := List.mem_map.1 hw
  exact ⟨hkind t ht, Word.spelled_of_tiled htiled [] t ht⟩

section
variable {good : Word → Prop} {tokens : List Token} (hw : Word.Ended good (tokens.map Token.word))
include hw

theorem stands_of_start {q : Parser} {t : SymbolToken}
    (h : Actions.moveOn .grammar (start tokens) = (.ok t, q)) :
    q.Stands good ∧ q.words = tokens.map Token.word ∧ q.scopes = .empty :=
  stands_of_moveOn ScopeChain.keeps_empty hw h

theorem start_of_known (hknown : ∀ w, good w → w.Known) :
    ∃ t q, Actions.moveOn .grammar (start tokens) = (.ok t, q) := by
  obtain ⟨q, hm⟩ := moveOn_of_known hknown (show Word.Ended good ((start tokens).unread.map _) from hw)
  exact ⟨_, q, hm⟩

end

end Parser

end ScriptTree
