import Mathlib.Logic.Equiv.Basic
import ScriptTree.Proofs.Labels
import ScriptTree.Proofs.RenamedScopes
import ScriptTree.Proofs.Spelling
import ScriptTree.Proofs.Symbols

/-!
# Renaming variables

Names matter to a parse only in so far as they are told apart and as some are words of the grammar.
A run is paired with one on the same tokens with other names (`Pairing.renamed`); the first one gives
its labels by their tallies, so that the tokens they come from are known.
-/

namespace ScriptTree

open Parse Actions

/-! ## Other names -/

def Token.rename (f : String → String) (t : Token) : Token :=
  { t with value := (t.word.rename f).2 }

theorem Token.word_rename (f : String → String) (t : Token) :
    (t.rename f).word = t.word.rename f := by
  obtain ⟨kind, value, position⟩ := t
  cases kind <;> rfl

theorem Token.rename_of_kind {f : String → String} {t : Token} (h : t.kind ≠ .name) :
    t.rename f = t := by
  obtain ⟨kind, value, position⟩ := t
  cases kind with
  | name => exact absurd rfl h
  | _ => rfl

theorem Token.value_rename {f : String → String} {t : Token} (h : t.isName = true) :
    (t.rename f).value = f t.value := by
  obtain ⟨kind, value, position⟩ := t
  cases kind with
  | name => rfl
  | _ => cases h

def Occurrence.rename (f : String → String) (o : Occurrence) : Occurrence :=
  { o with token := o.token.rename f }

theorem Token.rename_id (t : Token) : t.rename id = t := by
  obtain ⟨kind, value, position⟩ := t
  cases kind <;> rfl

def Cause.withText (text : String) : Cause → Cause
  | badNumber _ => .badNumber text
  | noOperand _ => .noOperand text
  | noOperator _ => .noOperator text
  | expected id _ => .expected id text
  | unknownOperator _ => .unknownOperator text
  | alreadyDefined _ => .alreadyDefined text
  | alreadyReserved _ => .alreadyReserved text
  | noPropertyName _ => .noPropertyName text
  | noVariableName _ => .noVariableName text
  | noParameterName _ => .noParameterName text
  | badKey _ => .badKey text
  | cause => cause

/-- The second error blames the same token, under its other name. -/
def SyntaxError.Renamed (f : String → String) (tokens : List Token) (d e : SyntaxError) : Prop :=
  ∃ t, (t ∈ tokens ∨ t = .ending t.position) ∧ t.position = d.position ∧
    d.cause.withText t.value = d.cause ∧ e = ⟨d.cause.withText (t.rename f).value, d.position⟩

/-! ## Runs under other names -/

/-- The same token under another name. If it is read as a name, so it is spelled anew, else not. -/
structure SymbolToken.Renamed (f : String → String) (tokens : List Token) (t u : SymbolToken) :
    Prop where
  id : u.id = t.id
  token : u.token = t.token.rename f
  name : t.id = nameId → u.value = f t.value
  other : t.id ≠ nameId → u.value = t.value
  among : t.token ∈ tokens ∨ t.token = .ending t.position

structure Parser.Renamed (f : String → String) (tokens : List Token) (p q : Parser) : Prop where
  current : p.current.Renamed f tokens q.current
  unread : q.unread = p.unread.map (Token.rename f)
  here : p.here ∈ occurrences tokens ∨ p.current.token = .ending p.current.position
  suffix : p.unread <:+ tokens
  scopes : p.scopes.Renames f q.scopes
  finish : q.finish = p.finish

/-- A run that tallies its labels, and one under other names whose labels are found by the tallies. -/
def Pairing.renamed (f : String → String) (tokens : List Token) (label : String → String) :
    Pairing where
  state p q := p.Renamed f tokens q
  halted _ _ := True
  token t u := t.Renamed f tokens u
  label t u := u.value = label t.value ∧ u.position = t.position ∧
    ∃ o ∈ occurrences tokens, t.value = tally o
  node a b := b = a.respell f label ∧ ∀ text ∈ a.labels, ∃ o ∈ occurrences tokens, text = tally o
  error d e := d.Renamed f tokens e

open Pairing

section
variable {f : String → String} {tokens : List Token} {label : String → String}

namespace SymbolToken.Renamed

variable {t u : SymbolToken} (h : t.Renamed f tokens u)
include h

theorem kind : u.token.kind = t.token.kind := by
  rw [h.token]
  rfl

theorem position : u.position = t.position := by
  rw [SymbolToken.position, h.token]
  rfl

theorem isName : u.isName = t.isName := by
  rw [SymbolToken.isName, Token.isName, h.kind]
  rfl

theorem value_of_isName (ht : t.isName = true) : u.value = f t.value := by
  rw [SymbolToken.value, h.token, Token.value_rename ht]
  rfl

theorem value_of_kind (hk : t.token.kind ≠ .name) : u.value = t.value := by
  rw [SymbolToken.value, h.token, Token.rename_of_kind hk]
  rfl

theorem error {cause : String → Cause} (hc : ∀ s s', (cause s).withText s' = cause s') :
    (t.error (cause t.value)).Renamed f tokens (u.error (cause u.value)) := by
  refine ⟨t.token, h.among, rfl, hc _ _, ?_⟩
  rw [SymbolToken.error, SymbolToken.error, hc, h.position, SymbolToken.value, h.token]

end SymbolToken.Renamed

theorem renamed_of_classify (hf : SymbolTable.grammar.Spares f) {scopes : ScopeChain}
    {isLast : Bool} {token : Token} {id : String} (ht : token ∈ tokens)
    (h : classify .grammar scopes isLast token = .ok id) :
    SymbolToken.Renamed f tokens ⟨id, token⟩ ⟨id, token.rename f⟩ := by
  have hname : f nameId = nameId := hf.word (by decide +kernel)
  suffices hvalue : (id = nameId → (token.rename f).value = f token.value) ∧
      (id ≠ nameId → (token.rename f).value = token.value) from
    ⟨rfl, rfl, hvalue.1, hvalue.2, .inl ht⟩
  obtain ⟨kind, value, position⟩ := token
  unfold classify at h
  cases kind with
  | name =>
    refine ⟨fun _ => rfl, fun hid => ?_⟩
    have hid' := Except.ok.inj h
    unfold ScopeChain.resolve at hid'
    split at hid'
    · rename_i hc
      exact hf.word (Bool.and_eq_true_iff.1 hc).1
    · exact absurd hid'.symm hid
  | operator =>
    refine ⟨fun hid => ?_, fun _ => rfl⟩
    dsimp only at h
    split at h
    · have hvalue : value = nameId := (Except.ok.inj h).trans hid
      rw [hvalue, hname]
      rfl
    · cases h
  | string | number =>
    refine ⟨fun hid => ?_, fun _ => rfl⟩
    cases h
    exact absurd hid (by decide)
  | ending =>
    refine ⟨fun hid => ?_, fun _ => rfl⟩
    dsimp only at h
    split at h
    · cases h
      exact absurd hid (by decide)
    · cases h

theorem renamed_ending (position : Position) : SymbolToken.Renamed f tokens
    ⟨endId, .ending position⟩ ⟨endId, .ending position⟩ where
  id := rfl
  token := rfl
  name h := absurd (show endId = nameId from h) (by decide)
  other _ := rfl
  among := .inr rfl

theorem kind_of_classify {table : SymbolTable} {scopes : ScopeChain} {isLast : Bool} {token : Token}
    {e : SyntaxError} (h : classify table scopes isLast token = .error e) :
    token.kind ≠ .name ∧ e.position = token.position ∧ e.cause.withText token.value = e.cause := by
  obtain ⟨hk, rfl⟩ | ⟨hk, -, rfl⟩ := classify_eq_error h
  · exact ⟨by simp [hk], rfl, rfl⟩
  · exact ⟨by simp [hk], rfl, rfl⟩

/-! ## Steps -/

section
variable {p q : Parser} (hf : SymbolTable.grammar.Spares f)
include hf

theorem renamed_moveOn {R : SymbolToken → SymbolToken → Prop} (hR : R p.current q.current)
    (h : p.Renamed f tokens q) :
    (renamed f tokens label).Outcome R (moveOn .grammar p) (moveOn .grammar q) := by
  unfold moveOn
  rw [h.unread, h.finish]
  cases hp : p.unread with
  | nil => exact .ok hR ⟨renamed_ending _, rfl, .inr rfl, List.nil_suffix, h.scopes, rfl⟩
  | cons token rest =>
    have hsuffix := h.suffix
    rw [hp] at hsuffix
    have htoken : token ∈ tokens := hsuffix.subset (List.mem_cons_self ..)
    have hhere : ⟨rest.length, token⟩ ∈ occurrences tokens :=
      (occurrences_suffix hsuffix).subset (List.mem_cons_self ..)
    have hrest : rest <:+ tokens := (List.suffix_cons _ _).trans hsuffix
    have hempty : (rest.map (Token.rename f)).isEmpty = rest.isEmpty := by cases rest <;> rfl
    rw [List.map_cons]
    dsimp only
    rw [hempty, classify_of_renames hf h.scopes rest.isEmpty (token.word_rename f)]
    cases hc : classify .grammar p.scopes rest.isEmpty token with
    | ok id => exact .ok hR ⟨renamed_of_classify hf htoken hc, rfl, .inl hhere, hrest, h.scopes, rfl⟩
    | error e =>
      obtain ⟨hk, hposition, hcause⟩ := kind_of_classify hc
      refine .error ⟨token, .inl htoken, hposition.symm, hcause, ?_⟩ trivial
      rw [Token.rename_of_kind hk, hcause, hposition]

theorem renamed_label {tag : Occurrence → String} (h : p.Renamed f tokens q)
    (ht : (p.current.isName || p.current.token.isLiteral) = true)
    (hlabel : ∀ o ∈ occurrences tokens, label (tally o) = tag (o.rename f)) :
    (renamed f tokens label).Outcome
      (fun t u => (renamed f tokens label).label t u ∧ t.token.kind = p.current.token.kind)
      ((labelling tally .grammar).label p) ((labelling tag .grammar).label q) := by
  have hmem : p.here ∈ occurrences tokens := by
    rcases h.here with hmem | hending
    · exact hmem
    · rw [SymbolToken.isName, hending] at ht
      cases ht
  have hhere : q.here = p.here.rename f := by
    rw [Parser.here, Parser.here, Occurrence.rename, h.unread, List.length_map, h.current.token]
  have hstep : (renamed f tokens label).Outcome (fun t u => t = p.current ∧ u = q.current)
      (moveOn .grammar p) (moveOn .grammar q) := renamed_moveOn hf ⟨rfl, rfl⟩ h
  refine hstep.bind fun t u htu => paired_pure ?_
  obtain ⟨rfl, rfl⟩ := htu
  refine ⟨⟨?_, h.current.position, _, hmem, rfl⟩, rfl⟩
  exact (congrArg tag hhere).trans (hlabel _ hmem).symm

end

section
variable {p q : Parser} {t u : SymbolToken}

theorem renamed_changeScopes {change change' : ScopeChain → Except SyntaxError ScopeChain}
    (ht : t.Renamed f tokens u) (hname : t.isName = true) (h : p.Renamed f tokens q)
    (hchange : ScopeChain.Changed f t.value t.position u.position
      (change p.scopes) (change' q.scopes)) :
    (renamed f tokens label).Outcome (fun _ _ => True) (changeScopes change p)
      (changeScopes change' q) := by
  unfold changeScopes
  generalize change p.scopes = result at hchange ⊢
  generalize change' q.scopes = result' at hchange ⊢
  have hvalue := ht.value_of_isName hname
  cases hchange with
  | ok hscopes => exact .ok trivial ⟨h.current, h.unread, h.here, h.suffix, hscopes, h.finish⟩
  | defined =>
    rw [← hvalue]
    exact .error (ht.error fun _ _ => rfl) trivial
  | reserved =>
    rw [← hvalue]
    exact .error (ht.error fun _ _ => rfl) trivial

end

/-! ## The rules -/

theorem node_of_no_labels {a b : Node} (h : b = a.respell f label) (hl : a.labels = []) :
    (renamed f tokens label).node a b := by
  refine ⟨h, fun text ht => ?_⟩
  rw [hl] at ht
  cases ht

theorem renamed_asName {t u : SymbolToken} (h : t.Renamed f tokens u)
    (hvalue : u.value = f t.value) : (renamed f tokens label).node t.asName u.asName := by
  refine node_of_no_labels ?_ (labels_asName t)
  rw [SymbolToken.asName, SymbolToken.asName, hvalue, h.position]
  rfl

theorem lawful_renamed (hf : SymbolTable.grammar.Spares f) {tag : Occurrence → String}
    (hlabel : ∀ o ∈ occurrences tokens, label (tally o) = tag (o.rename f)) :
    (renamed f tokens label).Lawful .grammar (labelling tally .grammar)
      (labelling tag .grammar) where
  halted _ := trivial
  current h := h.current
  id h := h.id
  kind h := h.kind
  fault h hc := h.error (by cases hc <;> exact fun _ _ => rfl)
  noOperator h _ _ := h.error fun _ _ => rfl
  badNumber h _ _ := h.error fun _ _ => rfl
  misuse h hc := by
    -- these blame no token, so the end will do
    obtain ⟨rfl, -⟩ := h
    rw [Node.position_respell]
    simp only [Cause.misuses, List.mem_cons, List.not_mem_nil, or_false] at hc
    rcases hc with rfl | rfl | rfl <;> exact ⟨.ending _, .inr rfl, rfl, rfl, rfl⟩
  isAssignable h := by rw [h.1, Node.form_respell, Form.isAssignable_respell]
  isCallable h := by rw [h.1, Node.form_respell, Form.isCallable_respell]
  isAssignment h := by rw [h.1, Node.form_respell, Form.isAssignment_respell]
  isCall h := by rw [h.1, Node.form_respell, Form.isCall_respell]
  name h hr := renamed_asName h (h.name (List.mem_singleton.1 (prefixRule_eq_some.1 hr)))
  numeral h hk := h.value_of_kind (by rw [hk]; decide)
  number h _ _ := by
    refine node_of_no_labels ?_ (labels_of_literal ..)
    rw [SymbolToken.Renamed.position h]
    rfl
  string h hr _ := by
    have hid := List.mem_singleton.1 (prefixRule_eq_some.1 hr)
    refine node_of_no_labels ?_ (labels_of_literal ..)
    rw [SymbolToken.Renamed.position h, SymbolToken.Renamed.other h (by rw [hid]; decide)]
    rfl
  constant h _ _ := by
    refine node_of_no_labels ?_ (labels_of_literal ..)
    rw [SymbolToken.node, SymbolToken.node, h.id, SymbolToken.Renamed.position h]
    rfl
  made h hfg := by
    refine ⟨?_, labels_of_made hfg (·.2) (·.2.2)⟩
    rw [SymbolToken.node, h.id, SymbolToken.Renamed.position h,
      respell_of_made (P := renamed f tokens label) (·.1) hfg (·.value_of_isName)
        fun h => ⟨h.1, h.2.1⟩]
    rfl
  entry {t u a b} h _ hab := by
    refine ⟨?_, fun text ht => ?_⟩
    · rw [Node.respell_withKey, hab.1, h.1]
    · rcases List.mem_cons.1 ((a.labels_withKey t.value).subset ht) with rfl | ht
      · exact h.2.2
      · exact hab.2 text ht
  advance h := renamed_moveOn hf ⟨rfl, rfl⟩ h
  label h ht := renamed_label hf h ht hlabel
  define {t u} h hn p q hpq := by
    have hdefine := hpq.scopes.define hf.injective t.value t.position u.position
    rw [← h.value_of_isName hn] at hdefine
    exact (renamed_changeScopes h hn hpq hdefine).bind fun _ _ _ =>
      paired_pure (renamed_asName h (h.value_of_isName hn))
  reserve {t u} h p q hpq := by
    have hreserve := hpq.scopes.reserve hf.injective t.value t.position u.position
    simp only [labelling, standard]
    rw [h.isName]
    by_cases hn : t.isName = true
    · rw [if_pos hn, if_pos hn]
      rw [← h.value_of_isName hn] at hreserve
      exact renamed_changeScopes h hn hpq hreserve
    · rw [if_neg hn, if_neg hn]
      exact .ok trivial hpq
  openScope _ _ h := .ok trivial ⟨h.current, h.unread, h.here, h.suffix, h.scopes.push, h.finish⟩
  closeScope _ _ h := .ok trivial ⟨h.current, h.unread, h.here, h.suffix, h.scopes.pop, h.finish⟩

end

/-! ## Tallied labels -/

theorem renamed_start (f : String → String) (tokens : List Token) :
    (Parser.start tokens).Renamed f tokens (.start (tokens.map (Token.rename f))) where
  current := renamed_ending _
  unread := rfl
  here := .inr rfl
  suffix := List.suffix_refl _
  scopes := ScopeChain.renames_empty f
  finish := by
    unfold Parser.start
    rw [List.getLast?_map, Option.map_map]
    rfl

/-- Texts that are all tallies are those of some tokens. -/
theorem exists_tallied {tokens : List Token} {texts : List String}
    (h : ∀ text ∈ texts, ∃ o ∈ occurrences tokens, text = tally o) :
    ∃ labels : List Occurrence, (∀ o ∈ labels, o ∈ occurrences tokens) ∧ texts = labels.map tally := by
  induction texts with
  | nil => exact ⟨[], fun _ ho => (List.not_mem_nil ho).elim, rfl⟩
  | cons text rest ih =>
    obtain ⟨⟨o, ho, rfl⟩, hrest⟩ := List.forall_mem_cons.1 h
    obtain ⟨labels, hlabels, rfl⟩ := ih hrest
    exact ⟨o :: labels, List.forall_mem_cons.2 ⟨ho, hlabels⟩, rfl⟩

section
variable {f : String → String} (hf : SymbolTable.grammar.Spares f) {tokens : List Token}
  (tag : Occurrence → String)
include hf

theorem renamed_run (tokens : List Token) :
    let pairing := renamed f tokens (ofTally tokens fun o => tag (o.rename f))
    pairing.Outcome pairing.Body (script .grammar (labelling tally .grammar) (.start tokens))
      (script .grammar (labelling tag .grammar) (.start (tokens.map (Token.rename f)))) := by
  refine paired_scriptRun (lawful_renamed hf fun o ho => ofTally_tally ho _) ?_ ?_
  · simp [Parser.start]
  · exact renamed_moveOn hf trivial (renamed_start f tokens)

/-- A parse with tallied labels tells what any parse under other names gives. -/
theorem parse_of_tallied {tree : Statements} (h : parseLabelling tally tokens = .ok tree) :
    parseLabelling tag (tokens.map (Token.rename f)) =
        .ok (tree.respell f (ofTally tokens fun o => tag (o.rename f))) ∧
      ∀ text ∈ tree.labels, ∃ o ∈ occurrences tokens, text = tally o := by
  have hrun := renamed_run hf tag tokens
  unfold parseLabelling at h ⊢
  generalize script .grammar (labelling tally .grammar) (.start tokens) = run at hrun h
  generalize script .grammar (labelling tag .grammar) _ = run' at hrun ⊢
  cases hrun with
  | error => cases h
  | ok hbody =>
    cases h
    have hrespell := respell_of_body (P := renamed f tokens _) (·.1) hbody
    refine ⟨congrArg Except.ok hrespell, fun text ht => ?_⟩
    obtain ⟨node, hm, ht⟩ := List.mem_flatMap.1 ht
    obtain ⟨other, hnode⟩ := exists_of_nodes hbody.toList node hm
    exact hnode.2 text ht

theorem error_of_tallied {d : SyntaxError} (h : parseLabelling tally tokens = .error d) :
    ∃ e, parseLabelling tag (tokens.map (Token.rename f)) = .error e ∧ d.Renamed f tokens e := by
  have hrun := renamed_run hf tag tokens
  unfold parseLabelling at h ⊢
  generalize script .grammar (labelling tally .grammar) (.start tokens) = run at hrun h
  generalize script .grammar (labelling tag .grammar) _ = run' at hrun ⊢
  cases hrun with
  | error he =>
    cases h
    exact ⟨_, rfl, he⟩
  | ok => cases h

end

/-! ## Under the same names -/

section
variable {tokens : List Token}

theorem map_rename_id (tokens : List Token) : tokens.map (Token.rename id) = tokens := by
  rw [show Token.rename id = id from funext Token.rename_id, List.map_id]

theorem retagged_of_tallied (tag : Occurrence → String) {tree : Statements}
    (h : parseLabelling tally tokens = .ok tree) :
    parseLabelling tag tokens = .ok (tree.respell id (ofTally tokens tag)) := by
  have htag := (parse_of_tallied SymbolTable.grammar.spares_id tag h).1
  simp only [Occurrence.rename, Token.rename_id] at htag
  rwa [map_rename_id] at htag

theorem labels_retagged {labels : List Occurrence} (hamong : ∀ o ∈ labels, o ∈ occurrences tokens)
    (tag : Occurrence → String) : (labels.map tally).map (ofTally tokens tag) = labels.map tag := by
  rw [List.map_map]
  exact List.map_congr_left fun o ho => ofTally_tally (hamong o ho) tag

theorem takesAsLabels_of_tallied {tree : Statements} {labels : List Occurrence}
    (h : parseLabelling tally tokens = .ok tree) (hamong : ∀ o ∈ labels, o ∈ occurrences tokens)
    (hlabels : tree.labels = labels.map tally) : TakesAsLabels tokens labels := by
  intro tag
  refine ⟨_, retagged_of_tallied tag h, ?_⟩
  rw [Statements.labels_respell, hlabels, labels_retagged hamong]

/-- Whether a parse fails does not depend on how labels are tagged. -/
theorem error_retagged {tag : Occurrence → String} {e : SyntaxError}
    (h : parseLabelling tally tokens = .error e) : parseLabelling tag tokens = .error e := by
  obtain ⟨d, hd, t, -, -, hcause, rfl⟩ := error_of_tallied SymbolTable.grammar.spares_id tag h
  rwa [map_rename_id, Token.rename_id, hcause] at hd

end

/-! ## Scripts under other names -/

abbrev Identifier := {text : String // isWord text = true}

/-- A map of identifiers that tells them apart and leaves the words of the grammar alone; so it makes
no other identifier a word of the grammar. -/
structure Renaming where
  map : Identifier → Identifier
  injective : Function.Injective map
  keyword (name : Identifier) : isKeyword name.1 = true → map name = name

namespace Renaming

variable (r : Renaming)

def apply (text : String) : String := if h : isWord text = true then (r.map ⟨text, h⟩).1 else text

theorem isWord_apply (text : String) : isWord (r.apply text) = isWord text := by
  unfold apply
  by_cases h : isWord text = true
  · rw [dif_pos h, h]
    exact (r.map ⟨text, h⟩).2
  · rw [dif_neg h]

theorem spares : SymbolTable.grammar.Spares r.apply where
  injective s t h := by
    have hword := congrArg isWord h
    rw [isWord_apply, isWord_apply] at hword
    unfold apply at h
    by_cases hs : isWord s = true
    · have ht : isWord t = true := hword ▸ hs
      rw [dif_pos hs, dif_pos ht] at h
      exact congrArg Subtype.val (r.injective (Subtype.ext h))
    · rw [dif_neg hs, dif_neg (hword ▸ hs)] at h
      exact h
  word {name} h := by
    unfold apply
    by_cases hn : isWord name = true
    · rw [dif_pos hn, r.keyword ⟨name, hn⟩ h]
    · rw [dif_neg hn]

def swap (a b : Identifier) (ha : isKeyword a.1 = false) (hb : isKeyword b.1 = false) :
    Renaming where
  map := Equiv.swap a b
  injective := (Equiv.swap a b).injective
  keyword name h := by
    have hne (c : Identifier) (hc : isKeyword c.1 = false) : name ≠ c := by
      rintro rfl
      rw [h] at hc
      cases hc
    exact Equiv.swap_apply_of_ne_of_ne (hne a ha) (hne b hb)

end Renaming

/-- **Parsing commutes with renaming.** Under other names a script is accepted just if it was; the
tree has all its names and those of its labels that come from names spelled anew. If it was rejected,
it is so at the same place for the same cause, with the other name of the token that is blamed. -/
theorem parse_rename (r : Renaming) (tokens : List Token) :
    let renamed := tokens.map (Token.rename r.apply)
    (∀ tree, parseTokens .grammar tokens = .ok tree → ∃ other labels,
      parseTokens .grammar renamed = .ok other ∧
      other.unlabelled = (tree.respell r.apply id).unlabelled ∧
      TakesAsLabels tokens labels ∧ tree.labels = labels.map (·.token.value) ∧
      other.labels = labels.map fun o => (o.token.rename r.apply).value) ∧
    ∀ e, parseTokens .grammar tokens = .error e →
      ∃ d, parseTokens .grammar renamed = .error d ∧ e.Renamed r.apply tokens d := by
  intro renamed
  simp only [← parseLabelling_value]
  cases h : parseLabelling tally tokens with
  | error e =>
    refine ⟨fun tree htree => ?_, fun d hd => ?_⟩
    · rw [error_retagged h] at htree
      cases htree
    · rw [error_retagged h] at hd
      cases hd
      exact error_of_tallied r.spares (·.token.value) h
  | ok tallied =>
    obtain ⟨hother, hall⟩ := parse_of_tallied r.spares (·.token.value) h
    obtain ⟨labels, hamong, hlabels⟩ := exists_tallied hall
    have hsame := retagged_of_tallied (·.token.value) h
    refine ⟨fun tree htree => ?_, fun d hd => ?_⟩
    · rw [hsame] at htree
      cases htree
      refine ⟨_, labels, hother, ?_, takesAsLabels_of_tallied h hamong hlabels, ?_, ?_⟩
      · simp only [Statements.unlabelled, Statements.respell_respell]
        rfl
      · rw [Statements.labels_respell, hlabels, labels_retagged hamong]
      · rw [Statements.labels_respell, hlabels, labels_retagged hamong]
        rfl
    · rw [hsame] at hd
      cases hd

/-- A variable and a property of its name get the name of another variable. -/
theorem parse_rename_at_swap :
    let r := Renaming.swap ⟨"x", by decide⟩ ⟨"y", by decide⟩ (by decide +kernel) (by decide +kernel)
    let tokens : List Token := [⟨.name, "x", ⟨1, 1⟩⟩, ⟨.operator, "=", ⟨1, 3⟩⟩, ⟨.name, "y", ⟨1, 5⟩⟩,
      ⟨.operator, ".", ⟨1, 6⟩⟩, ⟨.name, "x", ⟨1, 7⟩⟩, ⟨.operator, ";", ⟨1, 8⟩⟩, .ending ⟨1, 9⟩]
    ∃ tree other, parseTokens .grammar tokens = .ok tree ∧ tree.labels = ["x"] ∧
      parseTokens .grammar (tokens.map (Token.rename r.apply)) = .ok other ∧
      other.labels = ["y"] ∧ other.unlabelled = (tree.respell r.apply id).unlabelled := by
  intro r tokens
  let assigned (x y : String) : Statements := .single (.ofForm "=" (.assignment (.ofName x ⟨1, 1⟩)
    (.ofForm "." (.member (.ofName y ⟨1, 5⟩) (.ofValue (.string x) ⟨1, 7⟩)) ⟨1, 6⟩)) ⟨1, 3⟩)
  have hlabels (x y : String) : (assigned x y).labels = [x] := by
    simp [assigned, Statements.labels, labelsOf, Statements.toList, labels_ofForm, Form.children,
      Form.label?, Node.ofName, Node.ofValue, Node.propertyName?]
    rfl
  have htree : parseTokens .grammar tokens = .ok (assigned "x" "y") := rfl
  obtain ⟨other, labels, hother, hunlabelled, -⟩ := (parse_rename r tokens).1 _ htree
  have hswapped : parseTokens .grammar (tokens.map (Token.rename r.apply)) =
      .ok (assigned "y" "x") := rfl
  cases hother.symm.trans hswapped
  exact ⟨_, _, htree, hlabels _ _, hother, hlabels _ _, hunlabelled⟩

end ScriptTree
