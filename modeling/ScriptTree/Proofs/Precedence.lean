import ScriptTree.Proofs.Halting
import ScriptTree.Proofs.Language.Complete
import ScriptTree.Proofs.Language.Sound

/-!
# Expressions by precedence

A script is read as a single expression just if it is derived as one, with the same tree. The climb
over binding powers and the levels of the language are two accounts of the same expressions.
-/

namespace ScriptTree

/-! ## Words of the language -/

def Word.Legible (w : Word) : Prop := w.1 ≠ .ending ∧ w.Known

def signs : List String :=
  ["[", "]", "\x7b", "\x7d", "(", ")", ".", ",", ";", "?", ":", "=", "+=", "-=", "&&", "||", "===",
    "!==", "<", "<=", ">", ">=", "+", "-", "*", "/", "!"]

namespace Word

theorem legible_sign {id : String} (h : id ∈ signs) : Legible (.operator, id) := by
  have hall : ∀ id ∈ signs, SymbolTable.grammar.contains id = true := by decide +kernel
  exact ⟨nofun, fun _ => hall id h⟩

theorem legible_close (bracket : Bracket) : Legible (.operator, bracket.close) := by
  refine legible_sign ?_
  cases bracket <;> decide

theorem legible_name (text : String) : Legible (.name, text) := ⟨nofun, nofun⟩

theorem legible_string (text : String) : Legible (.string, text) := ⟨nofun, nofun⟩

theorem legible_number (text : String) : Legible (.number, text) := ⟨nofun, nofun⟩

end Word

open Word in
theorem Derives.legible {functions : Prop} {part : Part} {ws : List Word}
    (h : Derives functions part ws) : ∀ w ∈ ws, w.Legible := by
  have hsign : ∀ ids : List String, (∀ id ∈ ids, id ∈ signs) → ∀ id ∈ ids, Legible (.operator, id) :=
    fun ids hids id hid => legible_sign (hids id hid)
  induction h with
  | unary hw _ ih =>
    have hall : ∀ w ∈ [(.operator, "-"), (.operator, "!"), (.name, "typeof")], Legible w := by
      simp (disch := decide) only [List.forall_mem_cons, List.not_mem_nil, false_implies,
        implies_true, legible_sign, legible_name, and_self]
    exact List.forall_mem_cons.2 ⟨hall _ hw, ih⟩
  | @binary level _ _ _ _ _ hid _ _ ih₁ ih₂ =>
    have hall := hsign level.operators (by cases level <;> decide)
    exact List.forall_mem_append.2 ⟨ih₁, List.forall_mem_cons.2 ⟨hall _ hid, ih₂⟩⟩
  | logic hid _ _ ih₁ ih₂ =>
    have hall := hsign ["&&", "||"] (by decide)
    exact List.forall_mem_append.2 ⟨ih₁, List.forall_mem_cons.2 ⟨hall _ hid, ih₂⟩⟩
  | assignment hid _ _ _ ih₁ ih₂ =>
    have hall := hsign ["=", "+=", "-="] (by decide)
    exact List.forall_mem_append.2 ⟨ih₁, List.forall_mem_cons.2 ⟨hall _ hid, ih₂⟩⟩
  | @entry w _ _ hw _ ih =>
    have hw : w.Legible := by
      obtain ⟨kind, text⟩ := w
      rcases hw with rfl | rfl | rfl
      · exact legible_name text
      · exact legible_string text
      · exact legible_number text
    exact List.forall_mem_cons.2 ⟨hw, List.forall_mem_cons.2 ⟨legible_sign (by decide), ih⟩⟩
  | _ =>
    -- the words of the parts, and words of the language between them
    simp_all only [List.forall_mem_cons, List.forall_mem_append, List.not_mem_nil, false_implies,
      implies_true, legible_name, legible_string, legible_number, legible_close, and_self, and_true,
      true_and]
    <;> simp (disch := decide) only [legible_sign, and_self]

/-! ## Single expressions -/

open Actions

theorem Actions.tame_standard : (standard .grammar).Tame False := ⟨.refl _, fun _ => False.elim⟩

theorem map_word_dropLast {tokens : List Token} {ws : List Word}
    (h : tokens.map Token.word = ws ++ [Word.ending]) : tokens.dropLast.map Token.word = ws := by
  rw [List.map_dropLast, h, List.dropLast_concat]

section
variable {script : String} {tokens : List Token} (h : tokensOf .standard script = .ok tokens)
include h

theorem derives_of_parseExpression (hf : ∀ t ∈ tokens, t.word ≠ (.name, "function")) {node : Node}
    (hn : parseExpression .grammar tokens = .ok node) :
    Derives False (.operand .expression node.bare) (tokens.dropLast.map Token.word) := by
  obtain ⟨ws, hws, hspelled⟩ := Parser.words_of_tokensOf h
  have hended : Word.Ended (Word.Proper False) (tokens.map Token.word) := by
    refine ⟨ws, hws, fun w hw => ⟨(hspelled w hw).1, (hspelled w hw).2, ?_⟩⟩
    rintro rfl
    have hmem : (.name, "function") ∈ tokens.map Token.word := hws ▸ List.mem_append_left _ hw
    obtain ⟨t, ht, hword⟩ := List.mem_map.1 hmem
    exact hf t ht hword
  obtain ⟨t, r, s, e, hm, hread, he⟩ := reads_of_singleExpression (Prod.ext hn rfl)
  obtain ⟨hr, hwords, -⟩ := Parser.stands_of_start hended hm
  obtain ⟨vs, htake, -, hd⟩ := spells_of_reads tame_standard hread hr
  have hend := htake.stands.words_of_end (fun _ hw => hw.1) (expect_eq_ok.1 he).1
  have hvs : tokens.map Token.word = vs ++ [Word.ending] := by rw [← hwords, htake.words, hend]
  rw [map_word_dropLast hvs]
  exact hd

theorem parseExpression_of_derives {functions : Prop} {node : Node}
    (hd : Derives functions (.operand .expression node) (tokens.dropLast.map Token.word)) :
    ∃ made, parseExpression .grammar tokens = .ok made ∧ made.bare = node := by
  obtain ⟨ws, hws, hspelled⟩ := Parser.words_of_tokensOf h
  rw [map_word_dropLast hws] at hd
  have hended : Word.Ended Word.Readable (tokens.map Token.word) :=
    ⟨ws, hws, fun w hw => ⟨(hspelled w hw).1, (hspelled w hw).2, (hd.legible w hw).2⟩⟩
  obtain ⟨t, r, hm⟩ := Parser.start_of_known hended fun _ hw => hw.2
  obtain ⟨hr, hwords, -⟩ := Parser.stands_of_start hended hm
  obtain ⟨s, made, hs, hbare, hread⟩ :=
    read_closed hr (read_of_derives hd) (hwords.trans hws) (by decide)
  obtain ⟨e, u, he⟩ := hs.stands.expect_end (show (standard .grammar).advance = _ from rfl) hs.words
  have hrun := singleExpression_of_reads SymbolTable.ends_grammar hm hread he
  exact ⟨made, congrArg Prod.fst hrun, hbare⟩

/-- **Expressions are read by precedence.** The trees of the words of a script, as far as it holds no
functions, are those that the levels of the language derive from them. -/
theorem parseExpression_iff_derives (hf : ∀ t ∈ tokens, t.word ≠ (.name, "function"))
    (node : Node) : (parseExpression .grammar tokens).map Node.bare = .ok node.bare ↔
      Derives False (.operand .expression node.bare) (tokens.dropLast.map Token.word) := by
  constructor
  · intro hn
    cases hmade : parseExpression .grammar tokens with
    | error e =>
      rw [hmade] at hn
      cases hn
    | ok made =>
      have hd := derives_of_parseExpression h hf hmade
      rw [hmade] at hn
      rwa [← Except.ok.inj hn]
  · intro hd
    obtain ⟨made, hmade, hbare⟩ := parseExpression_of_derives h hd
    rw [hmade, ← hbare]
    rfl

end

theorem parseExpression_iff_derives_at_product :
    let product : Node := .plain "*" (.binary (.plain "-" (.unary (.ofName "a" .start)))
      (.plain "+" (.binary (.ofName "b" .start) (.ofName "c" .start))))
    ∃ tokens, tokensOf .standard "-a * (b + c)" = .ok tokens ∧
      (∀ t ∈ tokens, t.word ≠ (.name, "function")) ∧
      Derives False (.operand .expression product) (tokens.dropLast.map Token.word) := by
  intro product
  have h : tokensOf .standard "-a * (b + c)" = .ok [⟨.operator, "-", ⟨1, 1⟩⟩,
      ⟨.name, "a", ⟨1, 2⟩⟩, ⟨.operator, "*", ⟨1, 4⟩⟩, ⟨.operator, "(", ⟨1, 6⟩⟩,
      ⟨.name, "b", ⟨1, 7⟩⟩, ⟨.operator, "+", ⟨1, 9⟩⟩, ⟨.name, "c", ⟨1, 11⟩⟩,
      ⟨.operator, ")", ⟨1, 12⟩⟩, .ending ⟨1, 13⟩] := eq_ok_of_toOption (by decide +kernel)
  refine ⟨_, h, ?_, (parseExpression_iff_derives h ?_ product).1 rfl⟩ <;> decide

end ScriptTree
