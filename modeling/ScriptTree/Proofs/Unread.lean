import ScriptTree.Proofs.Halting
import ScriptTree.Proofs.Precedence
import ScriptTree.Proofs.Steps
import ScriptTree.Proofs.Words

/-!
# Tokens that are left unread

A parse that succeeds stops at a symbol of the end. That is behind the last token, or else at a word
or an operator that is spelled like the symbol, which an early end of the tokens is not told from:
what follows it is not looked at (`unread_of_parse`).
-/

namespace ScriptTree

open Parse Actions

/-- The token is none of the end, but its symbol is. -/
def Token.SpellsEnd (t : Token) : Prop := t.value = endId ∧ (t.kind = .name ∨ t.kind = .operator)

/-- A token that is spelled like the end, and one more, stand in front of the unread tokens. -/
def EndsEarly (tokens unread : List Token) : Prop :=
  ∃ before word next, tokens = before ++ word :: next :: unread ∧ word.SpellsEnd

theorem spellsEnd_of_classify {table : SymbolTable} {scopes : ScopeChain} {t : Token}
    (h : classify table scopes false t = .ok endId) : t.SpellsEnd := by
  unfold classify at h
  split at h
  · rename_i hk
    have hid := Except.ok.inj h
    unfold ScopeChain.resolve at hid
    split at hid
    · exact ⟨hid, .inl hk⟩
    · exact absurd hid (by decide)
  · rename_i hk
    split at h
    · exact ⟨Except.ok.inj h, .inr hk⟩
    · cases h
  · exact absurd (Except.ok.inj h) (by decide)
  · exact absurd (Except.ok.inj h) (by decide)
  · cases h

/-- The unread tokens are behind the current one, which is the end only if it is spelled so; or there
are none. -/
def Parser.Amid (tokens : List Token) (p : Parser) : Prop :=
  p.unread = [] ∨ ∃ before, tokens = before ++ p.current.token :: p.unread ∧
    (p.current.id = endId → p.current.token.SpellsEnd)

section
variable {table : SymbolTable} {tokens : List Token} {p q : Parser} {t : SymbolToken}

theorem amid_of_moveOn (hp : p.unread <:+ tokens) (h : moveOn table p = (.ok t, q)) :
    q.Amid tokens := by
  obtain ⟨-, ⟨hu, rfl⟩ | ⟨token, rest, id, hu, hc, rfl⟩⟩ := moveOn_eq_ok h
  · exact .inl hu
  · -- a token of the end can be read as such only if it is the last
    by_cases hr : rest = []
    · exact .inl hr
    · rw [hu] at hp
      obtain ⟨before, hb⟩ := hp
      refine .inr ⟨before, hb.symm, ?_⟩
      rintro rfl
      rw [List.isEmpty_eq_false_iff.mpr hr] at hc
      exact spellsEnd_of_classify hc

theorem Parser.Amid.suffix (h : p.Amid tokens) : p.unread <:+ tokens := by
  obtain hu | ⟨before, hb, -⟩ := h
  · rw [hu]
    exact List.nil_suffix
  · exact ⟨before ++ [p.current.token], by simp [hb]⟩

theorem Parser.Amid.congr (h : p.Amid tokens) (hc : q.current = p.current)
    (hu : q.unread = p.unread) : q.Amid tokens := by
  unfold Amid
  rwa [hc, hu]

theorem Parse.Built.amid {α : Type} {x : Parse α} (h : Built (standard table) x) :
    ∀ {p a q}, p.Amid tokens → x p = (.ok a, q) → q.Amid tokens := by
  induction h with
  | pure | current =>
    intro p a q hp hx
    cases hx
    exact hp
  | fail e => exact fun _ hx => nomatch hx
  | bind _ _ ihx ihf =>
    intro p b r hp hx
    obtain ⟨a, q, hq, hr⟩ := bind_eq_ok.mp hx
    exact ihf a (ihx hp hq) hr
  | advance | label => exact fun hp hx => amid_of_moveOn hp.suffix hx
  | define t =>
    intro p a q hp hx
    obtain ⟨scopes, -, -, rfl⟩ := standard_define_eq_ok.mp hx
    exact hp.congr rfl rfl
  | reserve t =>
    intro p a q hp hx
    obtain ⟨scopes, -, rfl⟩ := standard_reserve_eq_ok.mp hx
    exact hp.congr rfl rfl
  | openScope =>
    intro p a q hp hx
    cases standard_openScope_eq_ok.mp hx
    exact hp.congr rfl rfl
  | closeScope =>
    intro p a q hp hx
    cases standard_closeScope_eq_ok.mp hx
    exact hp.congr rfl rfl

/-- Behind a symbol of the end all tokens are read, or it was no more than spelled so. -/
theorem unread_of_end (hp : p.Amid tokens) (h : (standard table).expect endId p = (.ok t, q)) :
    q.unread = [] ∨ EndsEarly tokens q.unread := by
  obtain ⟨hid, hm⟩ := expect_eq_ok.mp h
  rw [tail_of_moveOn hm]
  obtain hu | ⟨before, hb, hs⟩ := hp
  · simp [hu]
  · cases hu : p.unread with
    | nil => exact .inl rfl
    | cons next rest =>
      rw [hu] at hb
      exact .inr ⟨before, p.current.token, next, hb, hs hid⟩

theorem unread_of_script {tree : Statements}
    (h : Parse.script table (standard table) (.start tokens) = (.ok tree, q)) :
    q.unread = [] ∨ EndsEarly tokens q.unread := by
  obtain ⟨t, r, hm, h⟩ := bind_eq_ok.mp h
  obtain ⟨body, s, hb, h⟩ := bind_eq_ok.mp h
  obtain ⟨e, q', he, hq⟩ := bind_eq_ok.mp h
  cases hq
  have hr := amid_of_moveOn (List.suffix_refl tokens) hm
  exact unread_of_end ((built_body (built_nested table _ _)).amid hr hb) he

theorem unread_of_singleExpression {node : Node}
    (h : Parse.singleExpression table (standard table) (.start tokens) = (.ok node, q)) :
    q.unread = [] ∨ EndsEarly tokens q.unread := by
  obtain ⟨t, r, hm, h⟩ := bind_eq_ok.mp h
  obtain ⟨node, s, hn, h⟩ := bind_eq_ok.mp h
  obtain ⟨e, q', he, hq⟩ := bind_eq_ok.mp h
  cases hq
  have hr := amid_of_moveOn (List.suffix_refl tokens) hm
  exact unread_of_end (((built_nested table _ _).expression .none).amid hr hn) he

end

theorem classify_of_spellsEnd {scopes : ScopeChain} {isLast : Bool} {word : Token}
    (h : word.SpellsEnd) (hs : scopes.lookup? endId = none) :
    classify .grammar scopes isLast word = .ok endId := by
  have hc : SymbolTable.grammar.contains endId = true := by decide +kernel
  obtain ⟨hv, hk | hk⟩ := h
  · simp [classify, hk, hv, ScopeChain.resolve, hc, hs]
  · simp [classify, hk, hv, hc]

/-- A word that is spelled like the end is the end of a script, whatever is behind the next word. -/
theorem script_of_spellsEnd {word next : Token} (hw : word.SpellsEnd) (hn : next.kind = .name)
    (rest : List Token) : ∃ q,
      Parse.script .grammar (standard .grammar) (.start (word :: next :: rest)) = (.ok .empty, q) ∧
        q.unread = rest := by
  let p := Parser.start (word :: next :: rest)
  let q : Parser := { p with unread := next :: rest, current := ⟨endId, word⟩, moves := 1 }
  have hfirst : (standard .grammar).advance p = (.ok p.current, q) :=
    moveOn_of_classify (p := p) rfl (classify_of_spellsEnd hw rfl)
  have hnext : classify .grammar q.scopes rest.isEmpty next =
      .ok (q.scopes.resolve .grammar next.value) := by
    simp [classify, hn]
  have hend : (standard .grammar).expect endId q = (.ok q.current, _) :=
    expect_eq_ok.mpr ⟨rfl, moveOn_of_classify rfl hnext⟩
  exact ⟨_, script_of_reads SymbolTable.ends_grammar hfirst (.done (.inr rfl)) hend, rfl⟩

/-- No token of a script is spelled like the end, if the operators are the standard ones. -/
theorem not_spellsEnd_of_tokensOf {script : String} {tokens : List Token}
    (h : tokensOf .standard script = .ok tokens) : ∀ t ∈ tokens, ¬ t.SpellsEnd := by
  intro t ht hs
  obtain ⟨ws, hw, hall⟩ := Parser.words_of_tokensOf h
  have hmem : t.word ∈ ws ++ [Word.ending] := hw ▸ List.mem_map_of_mem ht
  obtain ⟨kind, value, position⟩ := t
  obtain ⟨rfl, hk⟩ := hs
  have hend : endId.toList = ['(', 'e', 'n', 'd', ')'] := by decide
  rcases List.mem_append.mp hmem with hws | hlast
  · have hspelled := (hall _ hws).2
    rcases hk with rfl | rfl
    · obtain ⟨c, rest, hc, hstart, -⟩ := hspelled
      cases hend.symm.trans hc
      exact absurd hstart (by decide)
    · obtain ⟨c, rest, hc, -, hround⟩ := hspelled
      cases hend.symm.trans hc
      cases hround rfl
  · cases List.mem_singleton.mp hlast
    rcases hk with hk | hk <;> cases hk

/-- **A parse that succeeds has taken every token**, or else the last but one that it has taken is
spelled like the end. Such a word with a name behind it is enough to leave any tokens unread, but the
tokens of a script with the standard operators have none. -/
theorem unread_of_parse (table : SymbolTable) (tokens : List Token) :
    (∀ tree q, Parse.script table (standard table) (.start tokens) = (.ok tree, q) →
      q.unread = [] ∨ EndsEarly tokens q.unread) ∧
    (∀ node q, Parse.singleExpression table (standard table) (.start tokens) = (.ok node, q) →
      q.unread = [] ∨ EndsEarly tokens q.unread) ∧
    (∀ word next, word.SpellsEnd → next.kind = .name → ∃ q,
      Parse.script .grammar (standard .grammar) (.start (word :: next :: tokens)) = (.ok .empty, q) ∧
        q.unread = tokens) ∧
    ∀ script, tokensOf .standard script = .ok tokens → ∀ unread, ¬ EndsEarly tokens unread := by
  refine ⟨fun _ _ => unread_of_script, fun _ _ => unread_of_singleExpression,
    fun word next hw hn => script_of_spellsEnd hw hn tokens, ?_⟩
  intro script h unread he
  obtain ⟨before, word, next, rfl, hw⟩ := he
  exact not_spellsEnd_of_tokensOf h word (by simp) hw

/-- A script that begins with a name spelled like the end is empty; a whole one is read as it should. -/
theorem unread_of_parse_at_name :
    let act := standard .grammar
    let word : Token := ⟨.name, endId, .start⟩
    let x : Token := ⟨.name, "x", ⟨1, 1⟩⟩
    let early := [word, x, x]
    (∃ tree q, Parse.script .grammar act (.start early) = (.ok tree, q) ∧
      (q.unread = [] ∨ EndsEarly early q.unread)) ∧
    (∃ node q, Parse.singleExpression .grammar act (.start [x]) = (.ok node, q) ∧
      (q.unread = [] ∨ EndsEarly [x] q.unread)) ∧
    (∃ q, Parse.script .grammar act (.start early) = (.ok .empty, q) ∧ q.unread = [x]) ∧
    tokensOf .standard "x" = .ok [x, .ending ⟨1, 2⟩] ∧ ¬ EndsEarly [x, .ending ⟨1, 2⟩] [] := by
  intro act word x early
  have h : tokensOf .standard "x" = .ok [x, .ending ⟨1, 2⟩] := eq_ok_of_toOption (by decide +kernel)
  refine ⟨⟨_, _, rfl, ?_⟩, ⟨_, _, rfl, ?_⟩, ?_, h, ?_⟩
  · exact (unread_of_parse .grammar early).1 _ _ rfl
  · exact (unread_of_parse .grammar [x]).2.1 _ _ rfl
  · exact (unread_of_parse .grammar [x]).2.2.1 word x ⟨rfl, .inl rfl⟩ rfl
  · exact (unread_of_parse .grammar _).2.2.2 "x" h []

end ScriptTree
