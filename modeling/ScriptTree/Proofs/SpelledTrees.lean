import ScriptTree.Proofs.Pairing
import ScriptTree.Proofs.Symbols
import ScriptTree.Proofs.Written

/-!
# Trees are spelled

Everything in the tree of a script comes from words of the script: names are spelled as names, be
they variables, properties or functions, and numerals have no sign. Unlike the derivation of a tree,
this does not need that the script leaves the words of the grammar alone.
-/

namespace ScriptTree

open Actions Parse Pairing

def Form.word? : Form → Option String
  | name text => some text
  | member _ property => property.propertyName?
  | function text? _ _ => text?
  | _ => none

structure Node.Spelled (node : Node) : Prop where
  name : ∀ text ∈ node.form.word?, Word.Spelled (.name, text)
  number : ∀ n ∈ node.number?, n.isUnsigned = true

/-! ## Words and states -/

structure SymbolToken.Spelled (t : SymbolToken) : Prop where
  word : t.token.word.Spelled
  name : t.id = nameId → t.isName = true

structure Parser.Spelled (p : Parser) : Prop where
  current : p.current.Spelled
  unread : ∀ t ∈ p.unread, t.word.Spelled

theorem SymbolToken.Spelled.spelled_name {t : SymbolToken} (h : t.Spelled) (ht : t.isName = true) :
    Word.Spelled (.name, t.value) := by
  have hword := h.word
  have hkind : t.token.kind = .name := by simpa [isName, Token.isName] using ht
  rwa [Token.word, hkind] at hword

theorem spelled_of_classify {table : SymbolTable} {scopes : ScopeChain} {isLast : Bool}
    {token : Token} {id : String} (hw : token.word.Spelled)
    (h : classify table scopes isLast token = .ok id) : SymbolToken.Spelled ⟨id, token⟩ := by
  refine ⟨hw, fun hid : id = nameId => ?_⟩
  unfold classify at h
  rw [SymbolToken.isName, Token.isName]
  cases hk : token.kind with
  | name => rfl
  | operator =>
    rw [Token.word, hk] at hw
    simp only [hk] at h
    split at h
    · -- no operator is spelled like the symbol of names
      obtain ⟨c, rest, htext, -, hpar⟩ := hw
      rw [show token.value = nameId from (Except.ok.inj h).trans hid] at htext
      cases htext
      exact absurd (hpar rfl) (by decide)
    · cases h
  | string | number =>
    simp only [hk] at h
    cases h
    exact absurd hid (by decide)
  | ending =>
    simp only [hk] at h
    split at h
    · cases h
      exact absurd hid (by decide)
    · cases h

theorem spelled_ending (position : Position) : SymbolToken.Spelled ⟨endId, .ending position⟩ :=
  ⟨trivial, fun h => absurd (show endId = nameId from h) (by decide)⟩

theorem spelled_of_moveOn {table : SymbolTable} {p q : Parser} {t : SymbolToken} (hp : p.Spelled)
    (h : moveOn table p = (.ok t, q)) : q.Spelled := by
  obtain ⟨-, ⟨hu, rfl⟩ | ⟨token, rest, id, hu, hc, rfl⟩⟩ := moveOn_eq_ok h
  · exact ⟨spelled_ending _, hp.unread⟩
  · obtain ⟨htoken, hrest⟩ := List.forall_mem_cons.1 (hu ▸ hp.unread)
    exact ⟨spelled_of_classify htoken hc, hrest⟩

/-! ## Runs on their own -/

def Pairing.spelled : Pairing where
  state p q := p = q ∧ p.Spelled
  halted _ _ := True
  token t u := t = u ∧ t.Spelled
  label t u := t = u ∧ t.Spelled
  node a b := a.bare = b.bare ∧ a.Everywhere Node.Spelled
  error _ _ := True

theorem word_of_made {f g : Form} (h : Pairing.spelled.Made f g) :
    ∀ text ∈ f.word?, Word.Spelled (.name, text) := by
  cases h with
  | member _ ht hname =>
    rintro _ ⟨⟩
    exact ht.2.spelled_name hname
  | function hname =>
    cases hname with
    | none => exact nofun
    | some hname =>
      obtain ⟨t, u, ht, hword, rfl, -⟩ := hname
      rintro _ ⟨⟩
      exact ht.2.spelled_name hword
  | _ => exact nofun

theorem number?_of_made {id : String} {position : Position} {f g : Form}
    (h : Pairing.spelled.Made f g) : (Node.ofForm id f position).number? = none := by
  cases h <;> rfl

section
variable {t : SymbolToken} (ht : t.Spelled)
include ht

theorem spelled_asName (h : t.isName = true) : t.asName.Everywhere Node.Spelled := by
  refine (Node.everywhere_ofForm rfl).2 ⟨?_, nofun⟩
  rintro _ ⟨⟩
  exact ht.spelled_name h

theorem spelled_number {n : Number} (hk : t.token.kind = .number)
    (hn : Number.ofText? t.value = some n) :
    (Node.ofValue (.number n) t.position).Everywhere Node.Spelled := by
  refine (Node.everywhere_ofForm rfl).2 ⟨nofun, ?_⟩
  rintro _ ⟨⟩
  have hword := ht.word
  rw [Token.word, hk] at hword
  rw [← String.ofList_toList (s := t.value)] at hn
  exact Number.isUnsigned_of_isNumeral hword hn

end

theorem spelled_literal {id : String} {value : Value} {position : Position}
    (h : (Node.ofForm id (.literal value) position).number? = none) :
    (Node.ofForm id (.literal value) position).Everywhere Node.Spelled := by
  refine (Node.everywhere_ofForm rfl).2 ⟨nofun, ?_⟩
  rw [h]
  exact nofun

/-! ## Steps -/

theorem spelled_changeScopes {R : Unit → Unit → Prop} (hR : R () ())
    (change : ScopeChain → Except SyntaxError ScopeChain) :
    Pairing.spelled.Run R (changeScopes change) (changeScopes change) := by
  rintro p _ ⟨rfl, hp⟩
  unfold changeScopes
  cases change p.scopes with
  | ok scopes => exact .ok hR ⟨rfl, hp.current, hp.unread⟩
  | error e => exact .error trivial trivial

theorem spelled_moveOn {R : SymbolToken → SymbolToken → Prop} {table : SymbolTable} {p : Parser}
    (hR : R p.current p.current) (hp : p.Spelled) :
    Pairing.spelled.Outcome R (moveOn table p) (moveOn table p) := by
  cases hm : moveOn table p with
  | mk result q =>
    cases result with
    | ok t =>
      rw [← current_of_moveOn hm] at hR
      exact .ok hR ⟨rfl, spelled_of_moveOn hp hm⟩
    | error e => exact .error trivial trivial

theorem lawful_spelled :
    Pairing.spelled.Lawful .grammar (standard .grammar) (standard .grammar) where
  halted _ := trivial
  current h := ⟨by rw [h.1], h.2.current⟩
  id h := by rw [h.1]
  kind h := by rw [h.1]
  fault _ _ := trivial
  noOperator _ _ _ := trivial
  badNumber _ _ _ := trivial
  misuse _ _ := trivial
  isAssignable h := Node.flag_of_bare h.1 Form.isAssignable_bare
  isCallable h := Node.flag_of_bare h.1 Form.isCallable_bare
  isAssignment h := Node.flag_of_bare h.1 Form.isAssignment_bare
  isCall h := Node.flag_of_bare h.1 Form.isCall_bare
  name h hr := by
    have hid := List.mem_singleton.1 (prefixRule_eq_some.1 hr)
    exact ⟨by rw [h.1], spelled_asName h.2 (h.2.name hid)⟩
  numeral h _ := by rw [h.1]
  number h hk hn := ⟨rfl, spelled_number h.2 hk hn⟩
  string h _ _ := ⟨by rw [h.1], spelled_literal rfl⟩
  constant h hr _ := by
    have hne : ∀ id ∈ PrefixRule.constant.ids, id ≠ literalId := by decide
    have hid := hne _ (prefixRule_eq_some.1 hr)
    refine ⟨by rw [h.1], spelled_literal ?_⟩
    unfold Node.number?
    split
    · exact if_neg hid
    · rfl
  made h hfg := by
    refine ⟨?_, everywhere_of_made hfg ⟨word_of_made hfg, ?_⟩ (·.2) fun _ => ?_⟩
    · rw [SymbolToken.bare_node, SymbolToken.bare_node, h.1,
        bare_of_made (P := .spelled) (·.1) hfg (fun h => by rw [h.1]) fun h => by rw [h.1]]
    · rw [number?_of_made hfg]
      exact nofun
    · exact ⟨nofun, nofun⟩
  entry {t u a b} h _ hab := by
    refine ⟨?_, (Node.everywhere_withKey ?_).2 hab.2⟩
    · rw [Node.bare_withKey, Node.bare_withKey, hab.1, h.1]
    · obtain ⟨id, key, position, form⟩ := a
      exact ⟨fun h => ⟨h.name, h.number⟩, fun h => ⟨h.name, h.number⟩⟩
  advance := by
    rintro p _ ⟨rfl, hp⟩
    exact spelled_moveOn ⟨rfl, rfl⟩ hp
  label := by
    rintro p _ ⟨rfl, hp⟩ -
    exact spelled_moveOn ⟨⟨rfl, hp.current⟩, rfl⟩ hp
  define := by
    rintro t _ ⟨rfl, ht⟩ hname
    exact (spelled_changeScopes (R := fun _ _ => True) trivial _).bind fun _ _ _ =>
      paired_pure ⟨rfl, spelled_asName ht hname⟩
  reserve := by
    rintro t _ ⟨rfl, -⟩
    exact paired_ite Iff.rfl (fun _ => spelled_changeScopes trivial _) fun _ => paired_pure trivial
  openScope := spelled_changeScopes trivial fun chain => .ok chain.push
  closeScope := spelled_changeScopes trivial fun chain => .ok chain.pop

/-! ## Scripts -/

theorem spelled_start {script : String} {tokens : List Token}
    (h : tokensOf .standard script = .ok tokens) : (Parser.start tokens).Spelled := by
  refine ⟨spelled_ending _, fun t ht => ?_⟩
  obtain ⟨ws, hws, hspelled⟩ := Parser.words_of_tokensOf h
  have hmem : t.word ∈ ws ++ [Word.ending] := hws ▸ List.mem_map_of_mem ht
  rcases List.mem_append.1 hmem with hmem | hmem
  · exact (hspelled _ hmem).2
  · rw [List.mem_singleton.1 hmem]
    trivial

/-- **Accepted trees are spelled** by the words of their scripts. -/
theorem spelled_of_parseScript {script : String} {tree : Statements}
    (h : parseScript script = .ok tree) : ∀ node ∈ tree.toList, node.Everywhere Node.Spelled := by
  obtain ⟨tokens, htokens, htree⟩ := parseScript_eq_ok.1 h
  have hstart := spelled_start htokens
  have hrun := paired_scriptRun lawful_spelled rfl (spelled_moveOn trivial hstart)
  unfold parseTokens at htree
  generalize Parse.script .grammar (standard .grammar) (.start tokens) = run at hrun htree
  cases hrun with
  | error => cases htree
  | ok hbody =>
    cases htree
    intro node hm
    obtain ⟨other, hother⟩ := exists_of_nodes hbody.toList node hm
    exact hother.2

end ScriptTree
