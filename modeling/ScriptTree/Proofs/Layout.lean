import ScriptTree.Proofs.Bare
import ScriptTree.Proofs.Foresight
import ScriptTree.Proofs.Pairing
import ScriptTree.Proofs.RenamedScopes

/-!
# The layout of a script

Where tokens stand is nothing to the parser: it copies positions into nodes, scopes and errors, and
never looks at them. So two scripts of the same words are read alike (`parse_of_words`), and all
positions in what a run makes are those of its tokens (`places_of_parse`). Both follow from one
pairing, `Pairing.layout`, of runs on the same words, where all positions of the first one are among
some places.
-/

namespace ScriptTree

open Parse Actions

/-! ## The pairing -/

/-- The same word under the same symbol. The first stands near the places. -/
structure SymbolToken.Relaid (near : Position → Prop) (t u : SymbolToken) : Prop where
  id : u.id = t.id
  word : u.token.word = t.token.word
  near : near t.position

structure Parser.Relaid (near : Position → Prop) (p q : Parser) : Prop where
  current : p.current.Relaid near q.current
  words : p.unread.map Token.word = q.unread.map Token.word
  scopes : p.scopes.Renames id q.scopes
  places : ∀ t ∈ p.unread, near t.position
  finish : near p.finish

def Pairing.layout (near : Position → Prop) : Pairing where
  state p q := p.Relaid near q
  halted p q := p.unread.length = q.unread.length
  token t u := t.Relaid near u
  label t u := t.Relaid near u
  node a b := a.bare = b.bare ∧ a.Everywhere (near ·.position)
  error d e := d.cause = e.cause ∧ near d.position

section
variable {near : Position → Prop}

namespace SymbolToken.Relaid

variable {t u : SymbolToken} (h : t.Relaid near u)
include h

theorem kind : u.token.kind = t.token.kind := congrArg Prod.fst h.word

theorem value : u.value = t.value := congrArg Prod.snd h.word

end SymbolToken.Relaid

theorem Parser.Relaid.halted {p q : Parser} (h : p.Relaid near q) :
    p.unread.length = q.unread.length := by
  simpa using congrArg List.length h.words

open Pairing

/-! ## Steps -/

section
variable {table : SymbolTable} {p q : Parser}

theorem layout_changeScopes {t u : SymbolToken}
    {change change' : ScopeChain → Except SyntaxError ScopeChain} (h : p.Relaid near q)
    (ht : near t.position) (hchange : ScopeChain.Changed id t.value t.position u.position
      (change p.scopes) (change' q.scopes)) :
    (layout near).Outcome (fun _ _ => True) (changeScopes change p) (changeScopes change' q) := by
  unfold changeScopes
  generalize change p.scopes = result at hchange ⊢
  generalize change' q.scopes = result' at hchange ⊢
  cases hchange with
  | ok hscopes => exact .ok trivial ⟨h.current, h.words, hscopes, h.places, h.finish⟩
  | defined | reserved => exact .error ⟨rfl, ht⟩ h.halted

section
variable {t u : SymbolToken} (ht : t.Relaid near u)
include ht

theorem layout_name : (layout near).node t.asName u.asName := by
  refine ⟨?_, (Node.everywhere_ofForm rfl).2 ht.near⟩
  rw [SymbolToken.asName, SymbolToken.asName, ht.value]
  rfl

theorem asName_of_relaid : u.asName = .ofName (id t.value) u.position := by
  rw [SymbolToken.asName, ht.value, id]

theorem layout_define (h : p.Relaid near q) :
    (layout near).Outcome (layout near).node ((standard table).define t p)
      ((standard table).define u q) := by
  have hdefine := h.scopes.define Function.injective_id t.value t.position u.position
  rw [← asName_of_relaid ht] at hdefine
  exact (layout_changeScopes h ht.near hdefine).bind fun _ _ _ => paired_pure (layout_name ht)

theorem layout_reserve (h : p.Relaid near q) :
    (layout near).Outcome (fun _ _ => True) ((standard table).reserve t p)
      ((standard table).reserve u q) := by
  have hreserve := h.scopes.reserve Function.injective_id t.value t.position u.position
  rw [← asName_of_relaid ht] at hreserve
  have hname : u.isName = t.isName := by simp [SymbolToken.isName, Token.isName, ht.kind]
  dsimp only [standard]
  rw [hname]
  by_cases hn : t.isName = true
  · rw [if_pos hn, if_pos hn]
    exact layout_changeScopes h ht.near hreserve
  · rw [if_neg hn, if_neg hn]
    exact .ok trivial h

end

theorem position_of_classify {c : ScopeChain} {isLast : Bool} {token : Token} {e : SyntaxError}
    (h : classify table c isLast token = .error e) : e.position = token.position := by
  obtain ⟨-, rfl⟩ | ⟨-, -, rfl⟩ := classify_eq_error h
  · rfl
  · rfl

/-- The step of two runs, whatever their current tokens are. -/
theorem layout_moveOn {R : SymbolToken → SymbolToken → Prop} (hR : R p.current q.current)
    (hwords : p.unread.map Token.word = q.unread.map Token.word)
    (hscopes : p.scopes.Renames id q.scopes) (hplaces : ∀ t ∈ p.unread, near t.position)
    (hfinish : near p.finish) :
    (layout near).Outcome R (moveOn table p) (moveOn table q) := by
  unfold moveOn
  cases hp : p.unread with
  | nil =>
    rw [hp] at hwords
    rw [List.map_eq_nil_iff.1 hwords.symm]
    exact .ok hR ⟨⟨rfl, rfl, hfinish⟩, rfl, hscopes, fun _ ht => (List.not_mem_nil ht).elim, hfinish⟩
  | cons token rest =>
    rw [hp] at hwords hplaces
    cases hq : q.unread with
    | nil =>
      rw [hq] at hwords
      cases hwords
    | cons other rest' =>
      rw [hq] at hwords
      obtain ⟨hword, hrest⟩ := List.cons.inj hwords
      have hlen : rest.length = rest'.length := by simpa using congrArg List.length hrest
      have hempty : rest'.isEmpty = rest.isEmpty := by
        cases rest <;> cases rest' <;> first | rfl | cases hlen
      have hnear : near token.position := hplaces token (List.mem_cons_self ..)
      dsimp only
      rw [hempty, classify_of_renames table.spares_id hscopes rest.isEmpty
        (by rw [Word.rename_id, hword])]
      cases hc : classify table p.scopes rest.isEmpty token with
      | ok id =>
        exact .ok hR ⟨⟨rfl, hword.symm, hnear⟩, hrest, hscopes,
          fun t ht => hplaces t (List.mem_cons_of_mem _ ht), hfinish⟩
      | error e => exact .error ⟨rfl, by rw [position_of_classify hc]; exact hnear⟩ hlen

end

theorem lawful_layout (table : SymbolTable) :
    (layout near).Lawful table (standard table) (standard table) where
  halted h := h.halted
  current h := h.current
  id h := h.id
  kind h := h.kind
  fault h _ := ⟨by simp only [SymbolToken.error, SymbolToken.Relaid.value h], h.near⟩
  noOperator h _ _ := ⟨by simp only [SymbolToken.error, SymbolToken.Relaid.value h], h.near⟩
  badNumber h _ _ := ⟨by simp only [SymbolToken.error, SymbolToken.Relaid.value h], h.near⟩
  misuse h _ := ⟨rfl, (Node.everywhere_iff.1 h.2).1⟩
  isAssignable h := Node.flag_of_bare h.1 Form.isAssignable_bare
  isCallable h := Node.flag_of_bare h.1 Form.isCallable_bare
  isAssignment h := Node.flag_of_bare h.1 Form.isAssignment_bare
  isCall h := Node.flag_of_bare h.1 Form.isCall_bare
  name h _ := layout_name h
  numeral h _ := h.value
  number h _ _ := ⟨rfl, (Node.everywhere_ofForm rfl).2 h.near⟩
  string h _ _ :=
    ⟨by rw [SymbolToken.Relaid.value h]; rfl, (Node.everywhere_ofForm rfl).2 h.near⟩
  constant h _ _ := by
    refine ⟨?_, (Node.everywhere_ofForm rfl).2 h.near⟩
    rw [SymbolToken.bare_node, SymbolToken.bare_node, h.id]
  made h hfg := by
    refine ⟨?_, everywhere_of_made hfg h.near (·.2) (·.near)⟩
    rw [SymbolToken.bare_node, SymbolToken.bare_node, h.id,
      bare_of_made (P := layout near) (·.1) hfg (·.value) (·.value)]
  entry {t u a b} h _ hab := by
    refine ⟨?_, (Node.everywhere_withKey ?_).2 hab.2⟩
    · rw [Node.bare_withKey, Node.bare_withKey, hab.1, SymbolToken.Relaid.value h]
    · cases a
      exact Iff.rfl
  advance h := layout_moveOn ⟨rfl, rfl⟩ h.words h.scopes h.places h.finish
  label h _ := layout_moveOn ⟨h.current, rfl⟩ h.words h.scopes h.places h.finish
  define h _ _ _ hpq := layout_define h hpq
  reserve h _ _ hpq := layout_reserve h hpq
  openScope _ _ h :=
    .ok trivial ⟨h.current, h.words, h.scopes.push, h.places, h.finish⟩
  closeScope _ _ h :=
    .ok trivial ⟨h.current, h.words, h.scopes.pop, h.places, h.finish⟩

end

/-! ## Whole runs -/

/-- Two runs that both give a tree, or both fail for the same cause after as many tokens. -/
inductive SameReading {α : Type} (same : α → α → Prop) (tokens other : List Token) :
    Except SyntaxError α × Parser → Except SyntaxError α × Parser → Prop
  | ok {a b : α} {p q : Parser} : same a b → SameReading same tokens other (.ok a, p) (.ok b, q)
  | error {d e : SyntaxError} {p q : Parser} : d.cause = e.cause → p.taken tokens = q.taken other →
    SameReading same tokens other (.error d, p) (.error e, q)

theorem SameReading.of_ok {α : Type} {same : α → α → Prop} {tokens other : List Token}
    {run run' : Except SyntaxError α × Parser} (h : SameReading same tokens other run run') {a : α}
    (ha : run.1 = .ok a) : ∃ b, run'.1 = .ok b ∧ same a b := by
  cases h with
  | ok hab =>
    cases ha
    exact ⟨_, rfl, hab⟩
  | error => cases ha

section
variable {tokens other : List Token} (h : tokens.map Token.word = other.map Token.word)
include h

theorem relaid_start : (Parser.start tokens).Relaid (fun _ => True) (.start other) where
  current := ⟨rfl, rfl, trivial⟩
  words := h
  scopes := ScopeChain.renames_empty id
  places _ _ := trivial
  finish := trivial

theorem sameReading_of_outcome {α : Type} {R same : α → α → Prop}
    {run run' : Except SyntaxError α × Parser}
    (hrun : (Pairing.layout fun _ => True).Outcome R run run') (hR : ∀ a b, R a b → same a b) :
    SameReading same tokens other run run' := by
  have hlen : tokens.length = other.length := by simpa using congrArg List.length h
  cases hrun with
  | ok hab _ => exact .ok (hR _ _ hab)
  | error he hpq =>
    refine .error he.1 ?_
    have hunread : _ = _ := hpq
    rw [Parser.taken, Parser.taken, hlen, hunread]

end

/-- **Layout never changes meaning.** Tokens of the same words, wherever they stand, give trees that
differ in positions only, and these are equal unless a literal is no number; or they are rejected for
the same cause, after as many tokens. -/
theorem parse_of_words (table : SymbolTable) (tokens other : List Token)
    (h : tokens.map Token.word = other.map Token.word) :
    let act := standard table
    SameReading (fun s t => s.bare = t.bare ∧
        (s.same t = true ↔ ∀ visit ∈ s.walk, visit.2.form ≠ .literal (.number .nan))) tokens other
      (Parse.script table act (.start tokens)) (Parse.script table act (.start other)) ∧
    SameReading (fun a b => a.bare = b.bare ∧
        (a.same b = true ↔ ∀ visit ∈ a.walk 0, visit.2.form ≠ .literal (.number .nan))) tokens other
      (Parse.singleExpression table act (.start tokens))
      (Parse.singleExpression table act (.start other)) := by
  intro act
  have hl : (Pairing.layout fun _ => True).Lawful table act act := lawful_layout table
  have hstart := relaid_start h
  have hlen : (Parser.start tokens).unread.length = (Parser.start other).unread.length :=
    hstart.halted
  have first : (Pairing.layout fun _ => True).Outcome (fun _ _ => True)
      (act.advance (.start tokens)) (act.advance (.start other)) :=
    layout_moveOn trivial hstart.words hstart.scopes hstart.places hstart.finish
  constructor
  · refine sameReading_of_outcome h (Pairing.paired_scriptRun hl hlen first) fun s t hst => ?_
    have hbare := Pairing.bare_of_body (P := .layout fun _ => True) (·.1) hst
    exact ⟨hbare, Statements.same_iff_of_bare hbare⟩
  · refine sameReading_of_outcome h (Pairing.paired_expressionRun hl hlen first) fun a b hab => ?_
    refine ⟨hab.1, (Node.same_iff_of_bare hab.1).trans ⟨fun hn visit => hn 0 visit, ?_⟩⟩
    exact a.everywhere_of_walk (P := (·.form ≠ .literal (.number .nan))) 0

theorem parse_of_words_at_call :
    let tokens : List Token := [⟨.name, "f", ⟨1, 1⟩⟩, ⟨.operator, "(", ⟨1, 2⟩⟩, ⟨.operator, ")", ⟨1, 3⟩⟩,
      ⟨.operator, ";", ⟨1, 4⟩⟩, .ending ⟨1, 5⟩]
    let other : List Token := [⟨.name, "f", ⟨2, 5⟩⟩, ⟨.operator, "(", ⟨2, 9⟩⟩, ⟨.operator, ")", ⟨3, 1⟩⟩,
      ⟨.operator, ";", ⟨4, 2⟩⟩, .ending ⟨5, 1⟩]
    ∃ s t, parseTokens .grammar tokens = .ok s ∧ parseTokens .grammar other = .ok t ∧
      s.bare = t.bare := by
  intro tokens other
  have hs : parseTokens .grammar tokens =
      .ok (.single (.ofForm "(" (.call (.ofName "f" ⟨1, 1⟩) []) ⟨1, 2⟩)) := rfl
  obtain ⟨t, ht, hbare, -⟩ := (parse_of_words .grammar tokens other rfl).1.of_ok hs
  exact ⟨_, t, hs, ht, hbare⟩

/-- What is no number is not equal to itself, and neither is a tree that holds it. -/
theorem not_same_of_words :
    let tokens : List Token := [⟨.name, "x", ⟨1, 1⟩⟩, ⟨.operator, "=", ⟨1, 3⟩⟩, ⟨.number, "nan", ⟨1, 5⟩⟩,
      ⟨.operator, ";", ⟨1, 8⟩⟩, .ending ⟨1, 9⟩]
    let other : List Token := [⟨.name, "x", ⟨2, 1⟩⟩, ⟨.operator, "=", ⟨2, 2⟩⟩, ⟨.number, "nan", ⟨2, 3⟩⟩,
      ⟨.operator, ";", ⟨2, 6⟩⟩, .ending ⟨2, 7⟩]
    tokens.map Token.word = other.map Token.word ∧
      ∃ s t, parseTokens .grammar tokens = .ok s ∧ parseTokens .grammar other = .ok t ∧
        s.same t = false := by
  refine ⟨rfl, .single (.ofForm "=" (.assignment (.ofName "x" ⟨1, 1⟩)
      (.ofValue (.number .nan) ⟨1, 5⟩)) ⟨1, 3⟩), .single (.ofForm "=" (.assignment
      (.ofName "x" ⟨2, 1⟩) (.ofValue (.number .nan) ⟨2, 3⟩)) ⟨2, 2⟩), rfl, rfl, ?_⟩
  refine Bool.eq_false_iff.2 fun hsame => ?_
  rw [Statements.same_iff_of_bare (by rfl)] at hsame
  refine hsame (1, .ofValue (.number .nan) ⟨1, 5⟩) ?_ rfl
  refine List.mem_flatMap.2 ⟨_, .head _, ?_⟩
  rw [Node.walk_eq]
  refine .tail _ (List.mem_flatMap.2 ⟨_, .tail _ (.head _), ?_⟩)
  rw [Node.walk_eq]
  exact .head _

/-- All positions in what a parse gives are those of its tokens. -/
theorem places_of_parse (table : SymbolTable) {tokens : List Token} (hne : tokens ≠ []) :
    (match parseTokens table tokens with
      | .ok s => ∀ visit ∈ s.walk, ∃ t ∈ tokens, t.position = visit.2.position
      | .error e => ∃ t ∈ tokens, t.position = e.position) ∧
    match parseExpression table tokens with
      | .ok a => ∀ visit ∈ a.walk 0, ∃ t ∈ tokens, t.position = visit.2.position
      | .error e => ∃ t ∈ tokens, t.position = e.position := by
  let near (p : Position) : Prop := ∃ t ∈ tokens, t.position = p
  have hl : (Pairing.layout near).Lawful table (standard table) (standard table) :=
    lawful_layout table
  have hfinish : near (Parser.start tokens).finish := by
    refine ⟨tokens.getLast hne, List.getLast_mem hne, ?_⟩
    rw [Parser.start, List.getLast?_eq_some_getLast hne]
    rfl
  have first : (Pairing.layout near).Outcome (fun _ _ => True)
      ((standard table).advance (.start tokens)) ((standard table).advance (.start tokens)) :=
    layout_moveOn trivial rfl (ScopeChain.renames_empty id) (fun t ht => ⟨t, ht, rfl⟩) hfinish
  constructor
  · have hrun := Pairing.paired_scriptRun hl rfl first
    rw [parseTokens]
    generalize script table (standard table) (.start tokens) = run at hrun
    cases hrun with
    | error he _ => exact he.2
    | ok hs _ =>
      refine (Statements.forall_walk (P := (near ·.position))).2 fun a ha => ?_
      obtain ⟨b, hab⟩ := Pairing.exists_of_nodes hs.toList a ha
      exact hab.2
  · have hrun := Pairing.paired_expressionRun hl rfl first
    rw [parseExpression]
    generalize singleExpression table (standard table) (.start tokens) = run at hrun
    cases hrun with
    | error he _ => exact he.2
    | ok ha _ => exact fun visit hv => ha.2 0 visit hv

end ScriptTree
