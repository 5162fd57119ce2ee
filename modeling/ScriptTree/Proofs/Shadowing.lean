import ScriptTree.Proofs.Rereading
import ScriptTree.Proofs.Schema

/-!
# Keywords that are hidden

A word of the grammar is no keyword where a variable hides it. A variable that is declared without a
value leaves no node in the tree, so what is written of the tree does not declare it, and the word is a
keyword again. Which trees are read back although their scripts declare such words is the subject of
`ScriptTree.Proofs.RoundTrip`.
-/

namespace ScriptTree

open Piece

/-! ## Fronts of texts -/

theorem Piece.Tiled.front {chars : OperatorChars} {pieces : List Piece} {piece : Piece}
    {after : List Char} (h : Tiled chars pieces) (hfits : Fits chars piece after)
    (htext : textOf pieces = piece.text ++ after) :
    ∃ rest, pieces = piece :: rest ∧ Tiled chars rest ∧ textOf rest = after := by
  obtain ⟨c, text, hcons, hread⟩ := read_of_fits hfits
  cases h with
  | nil =>
    rw [← htext] at hcons
    cases hcons
  | @cons first rest _ hfirst htiled =>
    obtain ⟨d, other, hother, hread'⟩ := read_of_fits hfirst
    have heq : c :: text = d :: other := by
      rw [← hcons, ← htext, ← hother]
      rfl
    obtain ⟨rfl, rfl⟩ := List.cons.inj heq
    obtain ⟨rfl, rfl⟩ := Prod.mk.inj (Except.ok.inj (hread.symm.trans hread'))
    exact ⟨rest, rfl, htiled, rfl⟩

theorem words_of_front {script text id : String} {tokens : List Token} {after : List Char}
    (h : tokensOf .standard script = .ok tokens)
    (hscript : script.toList = '(' :: (text.toList ++ ' ' :: (id.toList ++ ' ' :: after)))
    (htext : isWord text = true) (hid : isJoined id = true) :
    ∃ more, tokens.map Token.word = (.operator, "(") :: (.name, text) :: (.operator, id) :: more := by
  obtain ⟨pieces, htiled, hpieces, rfl⟩ := tiled_of_tokensOf h
  rw [hscript] at hpieces
  have hblank : Stops isBlank (id.toList ++ ' ' :: after) := by
    unfold isJoined at hid
    split at hid
    · cases hid
    · rename_i c rest hlist
      simp only [Bool.and_eq_true] at hid
      rw [hlist]
      rintro _ ⟨⟩
      exact (startsOperator_of_isOther hid.1.1.1).1
  obtain ⟨pieces, rfl, htiled, hpieces⟩ := htiled.front (fits_sign rfl _) hpieces
  have hname : Fits .standard (.lexeme .name text text.toList) (' ' :: (id.toList ++ ' ' :: after)) :=
    fits_name (spelled_of_isWord htext) fun _ hd => by cases hd; decide
  obtain ⟨pieces, rfl, htiled, hpieces⟩ := htiled.front hname hpieces
  have hgap : Fits .standard (.gap [' ']) (id.toList ++ ' ' :: after) :=
    .blanks (List.cons_ne_nil _ _) (List.forall_mem_singleton.2 rfl) hblank
  obtain ⟨pieces, rfl, htiled, hpieces⟩ := htiled.front hgap hpieces
  have hoperator : Fits .standard (.lexeme .operator id id.toList) (' ' :: after) :=
    fits_operator hid fun _ hd => by cases hd; decide
  obtain ⟨pieces, rfl, htiled, hpieces⟩ := htiled.front hoperator hpieces
  exact ⟨_, rfl⟩

/-! ## Assignments to keywords -/

open Actions

def assignments : List String := ["=", "+=", "-="]

section
variable {p q : Parser} {node : Node} {text id : String} {more : List Word}

/-- Behind an operand that cannot be assigned to, the climb neither stops at an assignment nor goes on
with it. -/
theorem not_climb_of_assignment {left : Node} (hid : p.current.id ∈ assignments)
    (hleft : left.form.isAssignable = false) :
    ¬ Reads .grammar (.standard .grammar) (.climb .none left node) p q := by
  intro h
  obtain ⟨symbol, hl, hr, -, hpower⟩ : ∃ symbol,
      SymbolTable.grammar.lookup? p.current.id = some symbol ∧ symbol.infixRule? = some .assignment ∧
        symbol.infixPower = .assignment ∧
        SymbolTable.grammar.power p.current.id = .assignment := by
    refine lookup?_of_operator ?_
    revert hid
    simp only [assignments, List.mem_cons, List.not_mem_nil, or_false]
    rintro (h | h | h) <;> rw [h] <;> decide
  cases h with
  | stay hlow => exact hlow (by rw [hpower]; decide)
  | climb _ hm hl' hr' hop _ =>
    rw [current_of_moveOn hm, hl] at hl'
    cases hl'
    rw [hr] at hr'
    cases hr'
    cases hop with
    | assignment h _ =>
      rw [hleft] at h
      cases h

theorem id_of_words {w : Word} (hp : p.Stands Word.Spelled) (hw : p.words = w :: more) :
    p.current.id = w.symbol := by
  obtain ⟨rfl, -⟩ := List.cons.inj hw
  exact hp.symbol

theorem moved_over {t : SymbolToken} {w : Word} (hp : p.Stands Word.Spelled) (hw : p.words = w :: more)
    (hk : w.1 ≠ .ending) (hm : (standard .grammar).advance p = (.ok t, q)) :
    t = p.current ∧ q.Stands Word.Spelled ∧ q.words = more := by
  obtain ⟨rfl, rfl⟩ := List.cons.inj hw
  obtain ⟨rfl, -, -, hwords, hq, -⟩ := hp.moved hm hk
  exact ⟨rfl, hq, (List.cons.inj hwords).2.symm⟩

theorem not_expression_of_assignment {power : BindingPower} (hid : p.current.id ∈ assignments) :
    ¬ Reads .grammar (.standard .grammar) (.expression power node) p q := by
  have hall : ∀ id ∈ assignments, ∀ rule ∈ PrefixRule.all, id ∉ rule.ids := by decide
  intro h
  cases h with
  | @expression _ _ _ _ _ rule _ _ _ hm hr _ _ =>
    rw [current_of_moveOn hm] at hr
    exact hall _ hid rule (by cases rule <;> decide) (prefixRule_eq_some.1 hr)

theorem not_expression_of_keyword (hp : p.Stands Word.Spelled) (htext : text ∈ keywords)
    (hid : id ∈ assignments) (hw : p.words = (.name, text) :: (.operator, id) :: more) :
    ¬ Reads .grammar (.standard .grammar) (.expression .none node) p q := by
  intro h
  have hsymbol : p.current.id = text :=
    (id_of_words hp hw).trans (Word.symbol_of_keyword (isKeyword_of_mem htext))
  cases h with
  | @expression _ p₁ _ _ token rule _ _ _ hm hr hoperand hclimb =>
    obtain ⟨rfl, hp₁, hw₁⟩ := moved_over hp hw nofun hm
    have hid₁ : p₁.current.id ∈ assignments := by
      rw [id_of_words hp₁ hw₁]
      exact hid
    have hrule := prefixRule_eq_some.1 hr
    rw [hsymbol] at hrule
    cases hoperand with
    | name | number | string | grouping | array | object =>
      exact absurd htext (by simp [PrefixRule.ids] at hrule; subst hrule; decide)
    | self hres | constant hres =>
      obtain ⟨scopes, -, rfl⟩ := standard_reserve_eq_ok.1 hres
      refine not_climb_of_assignment ?_ rfl hclimb
      exact hid₁
    | unary hres hexpression =>
      obtain ⟨scopes, -, rfl⟩ := standard_reserve_eq_ok.1 hres
      refine not_expression_of_assignment ?_ hexpression
      exact hid₁
    | function hopen hname hsign _ _ _ _ =>
      cases standard_openScope_eq_ok.1 hopen
      cases hname with
      | anonymous =>
        have hparenthesis : p₁.current.id = "(" := (expect_eq_ok.1 hsign).1
        rw [hparenthesis] at hid₁
        exact absurd hid₁ (by decide)
      | named hn _ _ =>
        have hkind₁ : p₁.current.token.kind = .operator := congrArg Prod.fst (List.cons.inj hw₁).1
        have hn₁ : p₁.current.isName = true := hn
        simp [SymbolToken.isName, Token.isName, hkind₁] at hn₁

/-- No script starts with one in parentheses. -/
theorem not_statements_of_keyword {nodes : List Node} (hp : p.Stands Word.Spelled)
    (htext : text ∈ keywords) (hid : id ∈ assignments)
    (hw : p.words = (.operator, "(") :: (.name, text) :: (.operator, id) :: more) :
    ¬ Reads .grammar (.standard .grammar) (.statements nodes) p q := by
  intro h
  have hsymbol : p.current.id = "(" := id_of_words hp hw
  cases h with
  | done hend =>
    rw [hsymbol] at hend
    exact absurd hend (by decide)
  | next _ hstatement _ =>
    cases hstatement with
    | ruled hr _ _ _ =>
      rw [hsymbol] at hr
      have hrule := statementRule_eq_some.1 hr
      rename StatementRule => rule
      cases rule <;> exact absurd hrule (by decide)
    | expressionStatement _ hexpression _ _ =>
      cases hexpression with
      | @expression _ p₁ _ _ token rule _ _ _ hm hr hoperand _ =>
        obtain ⟨rfl, hp₁, hw₁⟩ := moved_over hp hw nofun hm
        have hrule := prefixRule_eq_some.1 hr
        rw [hsymbol] at hrule
        cases hoperand with
        | grouping hinner _ => exact not_expression_of_keyword hp₁ htext hid hw₁ hinner
        | _ => exact absurd hrule (by decide)

end

theorem isOk_parseScript_of_front {script text id : String} {after : List Char}
    (hscript : script.toList = '(' :: (text.toList ++ ' ' :: (id.toList ++ ' ' :: after)))
    (htext : text ∈ keywords) (hid : id ∈ assignments) : (parseScript script).isOk = false := by
  have hword : ∀ text ∈ keywords, isWord text = true := by decide
  have hjoined : ∀ id ∈ assignments, isJoined id = true := by decide
  cases h : parseScript script with
  | error e => rfl
  | ok tree =>
    obtain ⟨tokens, htokens, hparse⟩ := parseScript_eq_ok.1 h
    obtain ⟨more, hw⟩ := words_of_front htokens hscript (hword text htext) (hjoined id hid)
    obtain ⟨q, hrun⟩ := parseTokens_eq_ok.1 hparse
    obtain ⟨t, r, nodes, s, e, hm, hread, -, -⟩ := reads_of_script hrun
    obtain ⟨hr, hwords, -⟩ := Parser.stands_of_start (Parser.words_of_tokensOf htokens) hm
    exact absurd hread (not_statements_of_keyword hr htext hid (hwords.trans hw))

theorem script_of_assignment {tree : Statements} {node target value : Node} {rest : List Node}
    {text : String} (htree : tree.toList = node :: rest)
    (hform : node.form = .assignment target value) (htarget : target.form = .name text) :
    ∃ after, tree.script.toList =
      '(' :: (text.toList ++ ' ' :: (node.id.toList ++ ' ' :: after)) := by
  obtain ⟨id, key, position, form⟩ := node
  obtain ⟨tid, tkey, tposition, tform⟩ := target
  obtain rfl : form = _ := hform
  obtain rfl : tform = _ := htarget
  refine ⟨(value.write .operand ++ ")" ++ ";" ++ "\n" ++ writeLines 0 rest).toList, ?_⟩
  rw [Statements.script, htree, writeLines, Node.write, Form.write, Node.write, Form.write]
  simp [Place.close, indentation, String.toList_append, Node.id]

/-- **A keyword that is hidden without a value is lost.** If the first statement that leaves a node
assigns to a variable that is spelled like a word of the grammar, what is written of the tree is
refused. -/
theorem isOk_parseScript_script_of_hidden {source text : String} {tree : Statements}
    {node target value : Node} {rest : List Node} (h : parseScript source = .ok tree)
    (htree : tree.toList = node :: rest) (hform : node.form = .assignment target value)
    (htarget : target.form = .name text) (htext : text ∈ keywords) :
    (parseScript tree.script).isOk = false := by
  have hid : node.id ∈ assignments := by
    obtain ⟨tokens, -, hparse⟩ := parseScript_eq_ok.1 h
    have hnode := (regular_of_script hparse).1.statement node (htree ▸ List.mem_cons_self ..)
    have hfits := (Node.everywhere_iff.1 hnode.good).1.1.fits
    rw [hform] at hfits
    exact hfits.1
  obtain ⟨after, hscript⟩ := script_of_assignment htree hform htarget
  exact isOk_parseScript_of_front hscript htext hid

theorem isOk_parseScript_script_of_hidden_at_pi :
    ∃ tree, parseScript "var pi; pi = 1;" = .ok tree ∧ tree.script = "(pi = 1);\n" ∧
      (parseScript tree.script).isOk = false := by
  have htokens : tokensOf .standard "var pi; pi = 1;" = .ok [⟨.name, "var", ⟨1, 1⟩⟩,
      ⟨.name, "pi", ⟨1, 5⟩⟩, ⟨.operator, ";", ⟨1, 7⟩⟩, ⟨.name, "pi", ⟨1, 9⟩⟩,
      ⟨.operator, "=", ⟨1, 12⟩⟩, ⟨.number, "1", ⟨1, 14⟩⟩, ⟨.operator, ";", ⟨1, 15⟩⟩,
      .ending ⟨1, 16⟩] := eq_ok_of_toOption (by decide +kernel)
  have h : parseScript "var pi; pi = 1;" = .ok (.single (.ofForm "=" (.assignment
      (.ofName "pi" ⟨1, 9⟩) (.ofValue (.number (.ofDecimal false ⟨1, 0⟩)) ⟨1, 14⟩)) ⟨1, 12⟩)) := by
    rw [parseScript, htokens]
    rfl
  exact ⟨_, h, by decide +kernel, isOk_parseScript_script_of_hidden h rfl rfl rfl (by decide)⟩

end ScriptTree
