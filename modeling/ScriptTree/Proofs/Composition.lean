import ScriptTree.Proofs.Layout
import ScriptTree.Proofs.Lines
import ScriptTree.Proofs.Rereading

/-!
# Scripts behind one another

Two scripts that declare different variables can be put on lines behind one another: the statements of
the whole are those of the first and then those of the second one (`parseScript_append`). No token
goes over a line end, so the words of the whole are those of the parts; and words that statements are
derived from are read as them whatever the words are that stand before.
-/

namespace ScriptTree

open Parse Actions

/-! ## Words of the whole -/

theorem Cuts.blanks {text after : List Char} {ws : List Word} (h : Cuts after ws)
    (hall : ∀ c ∈ text, isBlank c = true) : Cuts (text ++ after) ws := by
  induction text with
  | nil => exact h
  | cons c text ih =>
    obtain ⟨hc, hall⟩ := List.forall_mem_cons.1 hall
    exact .blank hc (ih hall)

theorem cuts_of_tiled {pieces : List Piece} (h : Piece.Tiled .standard pieces) {more : List Char}
    {ws : List Word} (hcuts : Cuts more ws) (hmore : ∀ c ∈ more.head?, c = '\n') :
    Cuts (Piece.textOf pieces ++ more) (Piece.words pieces ++ ws) := by
  induction h with
  | nil => exact hcuts
  | @cons piece pieces _ hfits _ ih =>
    rw [Piece.textOf, List.flatMap_cons, ← Piece.textOf, List.append_assoc]
    cases piece with
    | lexeme kind value text =>
      rcases Piece.fits_append hfits (by decide) hmore with ⟨_, hgap, -⟩ | hfits
      · cases hgap
      · exact .lexeme hfits ih
    | gap text =>
      cases hfits with
      | blanks _ hall _ => exact ih.blanks hall
      | comment hall hstop => exact .comment hall (Piece.stops_append rfl hstop hmore) ih

theorem words_append {a b : String} {tokens others : List Token} {ws vs : List Word}
    (ha : tokensOf .standard a = .ok tokens) (hb : tokensOf .standard b = .ok others)
    (hws : tokens.map Token.word = ws ++ [Word.ending])
    (hvs : others.map Token.word = vs ++ [Word.ending]) :
    ∃ all, tokensOf .standard (a ++ "\n" ++ b) = .ok all ∧
      all.map Token.word = ws ++ vs ++ [Word.ending] := by
  obtain ⟨pieces, htiled, htext, rfl⟩ := tiled_of_tokensOf ha
  obtain ⟨pieces', htiled', htext', rfl⟩ := tiled_of_tokensOf hb
  rw [List.map_append, map_word_tokensBehind] at hws hvs
  have hrest := cuts_of_tiled htiled' .nil nofun
  rw [List.append_nil, List.append_nil, htext', List.append_cancel_right hvs] at hrest
  have hcuts := cuts_of_tiled htiled (.blank (c := '\n') rfl hrest) (by simp)
  rw [htext, List.append_cancel_right hws] at hcuts
  refine tokensOf_of_cuts ?_
  rw [String.toList_append, String.toList_append, List.append_assoc]
  exact hcuts

/-! ## What is declared -/

def Scope.declares (scope : Scope) (name : String) : Bool :=
  (scope.lookup? name).any (!·.isReserved)

theorem Scope.declares_eq (scope : Scope) (name : String) :
    scope.declares name = (scope.marks.lookup name).any (!·) := by
  rw [lookup_marks, declares]
  cases scope.lookup? name <;> rfl

def globalScope (source : String) : Scope :=
  match tokensOf .standard source with
  | .error _ => .empty
  | .ok tokens => (Parse.script .grammar (.standard .grammar) (.start tokens)).2.scopes.global

/-- All scopes but the global one are closed behind a script. -/
theorem current_of_script {tokens : List Token} {tree : Statements} {q : Parser}
    (h : Parse.script .grammar (.standard .grammar) (.start tokens) = (.ok tree, q)) :
    q.scopes.current = q.scopes.global := by
  have hrefl := Refines.refl (standard .grammar)
  obtain ⟨t, r, nodes, s, e, hm, hread, he, -⟩ := reads_of_script h
  have hframes := (frames_of_advance hrefl hm).trans
    ((frames_of_reads hrefl hread).trans (frames_of_expect hrefl he))
  have hdepth : q.scopes.nested.length + 1 = 1 := hframes.depth
  have hnested : q.scopes.nested = [] := List.eq_nil_of_length_eq_zero (Nat.succ.inj hdepth)
  rw [ScopeChain.current, hnested]
  rfl

/-- The names that statements of a script are derived with are variables of its global scope. -/
theorem declares_of_script {source : String} {tokens : List Token} {tree : Statements} {q : Parser}
    {names : List String} (ht : tokensOf .standard source = .ok tokens)
    (h : Parse.script .grammar (.standard .grammar) (.start tokens) = (.ok tree, q))
    (hdecl : ScopeChain.empty.Declares names q.scopes) :
    ∀ name ∈ names, (globalScope source).declares name = true := by
  intro name hn
  obtain ⟨known, hknown, hvar⟩ := hdecl.known name hn
  rw [current_of_script h] at hknown
  simp only [globalScope, ht, h, Scope.declares, hknown, hvar, Option.any_some, Bool.not_false]

/-! ## The whole -/

/-- **Scripts compose.** Two scripts that declare no word of the grammar, and no variable that is
declared in the global scope of both, are read behind one another as what they are read as alone. -/
theorem parseScript_append {a b : String} {s t : Statements} (ha : parseScript a = .ok s)
    (hb : parseScript b = .ok t) (hfa : (parseDeclaring isFree a).isOk = true)
    (hfb : (parseDeclaring isFree b).isOk = true)
    (hapart : ∀ name, (globalScope a).declares name = true → (globalScope b).declares name = false) :
    ∃ tree, parseScript (a ++ "\n" ++ b) = .ok tree ∧
      tree.toList.map Node.bare = (s.toList ++ t.toList).map Node.bare := by
  obtain ⟨tokens, nodes, names, ws, p, htokens, hws, hrun, hdecl, hd⟩ := run_of_parseDeclaring hfa
  obtain ⟨others, rest, more, vs, q, hothers, hvs, hrun', hdecl', hd'⟩ := run_of_parseDeclaring hfb
  have hs : s = .ofList nodes := by
    rw [parseScript, htokens] at ha
    exact (Except.ok.inj ((congrArg Prod.fst hrun).symm.trans ha)).symm
  have ht : t = .ofList rest := by
    rw [parseScript, hothers] at hb
    exact (Except.ok.inj ((congrArg Prod.fst hrun').symm.trans hb)).symm
  obtain ⟨all, hall, hwords⟩ := words_append htokens hothers hws hvs
  have hnames : (names ++ more).Nodup := by
    refine List.nodup_append.2 ⟨hdecl.nodup, hdecl'.nodup, fun name hn other ho heq => ?_⟩
    have hfirst := declares_of_script htokens hrun hdecl name hn
    have hsecond := declares_of_script hothers hrun' hdecl' other ho
    rw [← heq, hapart name hfirst] at hsecond
    cases hsecond
  obtain ⟨made, hmade, hbare⟩ := parseScript_of_derives hall hwords hnames (hd.append hd')
  refine ⟨.ofList made, hmade, ?_⟩
  rw [hs, ht, Statements.toList_ofList, Statements.toList_ofList, Statements.toList_ofList, hbare,
    List.map_append]

theorem parseScript_append_at_var :
    let a := "var x = 2, y; // two"
    let b := "var z = x;"
    ∃ s t tree, parseScript a = .ok s ∧ parseScript b = .ok t ∧
      parseScript (a ++ "\n" ++ b) = .ok tree ∧
      tree.toList.map Node.bare = (s.toList ++ t.toList).map Node.bare := by
  intro a b
  have ha : tokensOf .standard a = .ok [⟨.name, "var", ⟨1, 1⟩⟩, ⟨.name, "x", ⟨1, 5⟩⟩,
      ⟨.operator, "=", ⟨1, 7⟩⟩, ⟨.number, "2", ⟨1, 9⟩⟩, ⟨.operator, ",", ⟨1, 10⟩⟩,
      ⟨.name, "y", ⟨1, 12⟩⟩, ⟨.operator, ";", ⟨1, 13⟩⟩, .ending ⟨1, 21⟩] :=
    eq_ok_of_toOption (by decide +kernel)
  have hb : tokensOf .standard b = .ok [⟨.name, "var", ⟨1, 1⟩⟩, ⟨.name, "z", ⟨1, 5⟩⟩,
      ⟨.operator, "=", ⟨1, 7⟩⟩, ⟨.name, "x", ⟨1, 9⟩⟩, ⟨.operator, ";", ⟨1, 10⟩⟩, .ending ⟨1, 11⟩] :=
    eq_ok_of_toOption (by decide +kernel)
  have hs : parseScript a = .ok (.single (.ofForm "=" (.declaration (.ofName "x" ⟨1, 5⟩)
      (.ofValue (.number (.ofDecimal false ⟨2, 0⟩)) ⟨1, 9⟩)) ⟨1, 7⟩)) := by
    rw [parseScript, ha]
    rfl
  have ht : parseScript b = .ok (.single (.ofForm "=" (.declaration (.ofName "z" ⟨1, 5⟩)
      (.ofName "x" ⟨1, 9⟩)) ⟨1, 7⟩)) := by
    rw [parseScript, hb]
    rfl
  refine (parseScript_append hs ht ?_ ?_ fun name hn => ?_).elim fun tree h => ⟨_, _, tree, hs, ht, h⟩
  · rw [parseDeclaring, ha]
    decide +kernel
  · rw [parseDeclaring, hb]
    decide +kernel
  · have hga : (globalScope a).marks = [("y", false), ("x", false), ("var", true)] := by
      rw [globalScope, ha]
      rfl
    have hgb : (globalScope b).marks = [("z", false), ("var", true)] := by
      rw [globalScope, hb]
      rfl
    rw [Scope.declares_eq, hga] at hn
    rw [Scope.declares_eq, hgb, List.lookup_cons]
    by_cases hz : name = "z"
    · subst hz
      cases hn
    · rw [beq_false_of_ne hz, List.lookup_cons]
      cases name == "var" <;> rfl

end ScriptTree
