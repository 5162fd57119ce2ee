import Mathlib.Data.List.Perm.Basic
import ScriptTree.Proofs.Bare
import ScriptTree.Proofs.Lines
import ScriptTree.Proofs.Reading.Runs

/-!
# Source order

Trees lie in the order of their script (`ordered_of_parseScript`). A node stands at one of its own
tokens, which may be behind its first operand: so a tree is listed with that operand first
(`Node.places`), and the list of what has been read is one of places that have been moved over, in
their order (`covers_of_reads`).
-/

namespace ScriptTree

open Actions

/-! ## The order of positions -/

def Position.Before (p q : Position) : Prop :=
  p.line < q.line ∨ p.line = q.line ∧ p.column < q.column

namespace Position

theorem Before.trans {p q r : Position} (h : p.Before q) (h' : q.Before r) : p.Before r := by
  simp only [Before, UInt32.lt_iff_toNat_lt, ← UInt32.toNat_inj] at *
  omega

theorem Before.ne {p q : Position} (h : p.Before q) : p ≠ q := by
  rintro rfl
  simp only [Before, UInt32.lt_irrefl, and_false, or_false] at h

theorem before_concat {before : List Char} {c : Char} (h : Counts (before ++ [c])) :
    (behind before).Before (behind (before ++ [c])) := by
  obtain ⟨hline, hcolumn⟩ := h.toNat (List.prefix_append before [c])
  obtain ⟨hline', hcolumn'⟩ := h.toNat (List.prefix_refl _)
  simp only [Before, UInt32.lt_iff_toNat_lt, ← UInt32.toNat_inj, hline, hcolumn, hline', hcolumn']
  by_cases hc : c = '\n'
  · left
    simp [hc, lineBehind]
  · right
    simp [hc, lineBehind, columnBehind]

theorem before_behind {before text : List Char} (hne : text ≠ []) (h : Counts (before ++ text)) :
    (behind before).Before (behind (before ++ text)) := by
  induction text generalizing before with
  | nil => exact absurd rfl hne
  | cons c text ih =>
    rw [← List.singleton_append, ← List.append_assoc] at h ⊢
    have hc := before_concat (h.mono (List.prefix_append _ text))
    by_cases ht : text = []
    · rwa [ht, List.append_nil]
    · exact hc.trans (ih ht h)

end Position

namespace Piece

open Position

/-- The tokens of slices, with the end behind them, are placed one behind the other. -/
theorem pairwise_tokensBehind {chars : OperatorChars} {pieces : List Piece}
    (h : Tiled chars pieces) {before : List Char} (hcounts : Counts (before ++ textOf pieces)) :
    ((tokensBehind before pieces ++ [Token.ending (behind (before ++ textOf pieces))]).map
      (·.position)).Pairwise Before := by
  induction h generalizing before with
  | nil => exact List.pairwise_singleton _ _
  | @cons piece pieces hne _ _ ih =>
    have hall : before ++ textOf (piece :: pieces) = before ++ piece.text ++ textOf pieces :=
      (List.append_assoc ..).symm
    rw [hall] at hcounts ⊢
    cases piece with
    | gap text => exact ih hcounts
    | lexeme kind value text =>
      refine List.pairwise_cons.2 ⟨fun position hq => ?_, ih hcounts⟩
      obtain ⟨token, ht, rfl⟩ := List.mem_map.1 hq
      obtain ⟨more, hp, hm⟩ := prefix_of_mem_ended ht
      have hbefore : before ++ (text ++ more) <+: before ++ text ++ textOf pieces := by
        rw [List.append_assoc]
        exact (List.prefix_append_right_inj _).2 ((List.prefix_append_right_inj _).2 hp)
      rw [hm, List.append_assoc]
      exact before_behind (List.append_ne_nil_of_left_ne_nil hne more) (hcounts.mono hbefore)

end Piece

theorem pairwise_of_tokensOf {chars : OperatorChars} {script : String} {tokens : List Token}
    (h : tokensOf chars script = .ok tokens) (hcounts : Position.Counts script.toList) :
    (tokens.map (·.position)).Pairwise Position.Before := by
  obtain ⟨pieces, htiled, htext, rfl⟩ := tiled_of_tokensOf h
  rw [← htext] at hcounts ⊢
  exact Piece.pairwise_tokensBehind htiled hcounts

/-! ## The places of a tree -/

def Form.ahead : Form → Nat
  | binary .. | assignment .. | declaration .. | member .. | index .. | call .. | ternary .. => 1
  | _ => 0

/-- The positions of a tree, that of a node behind those of its first operand if it joins several. -/
def Node.places (node : Node) : List Position :=
  let inner := node.children.attach.map fun ⟨child, _⟩ => child.places
  (inner.take node.form.ahead).flatten ++ node.position :: (inner.drop node.form.ahead).flatten
termination_by node
decreasing_by exact Node.sizeOf_lt_of_mem ‹_›

def placesOf (nodes : List Node) : List Position := nodes.flatMap Node.places

theorem Node.places_eq (node : Node) : node.places =
    placesOf (node.children.take node.form.ahead) ++
      node.position :: placesOf (node.children.drop node.form.ahead) := by
  rw [places]
  simp only [placesOf, List.map_attach_eq_pmap, List.pmap_eq_map, List.flatMap_def, List.map_take,
    List.map_drop]

@[simp] theorem placesOf_append (nodes more : List Node) :
    placesOf (nodes ++ more) = placesOf nodes ++ placesOf more := List.flatMap_append

@[simp] theorem placesOf_singleton (node : Node) : placesOf [node] = node.places :=
  List.append_nil _

theorem Node.places_withKey (key : String) (node : Node) : (node.withKey key).places = node.places := by
  cases node
  rw [places_eq, places_eq]
  rfl

theorem places_front {id : String} {form : Form} {position : Position} (h : form.ahead = 0) :
    (Node.ofForm id form position).places = [position] ++ placesOf form.children := by
  rw [Node.places_eq]
  simp only [Node.ofForm, Node.form, Node.children, Node.position, h]
  rfl

theorem places_leaf {id : String} {form : Form} {position : Position} (hf : form.ahead = 0)
    (hc : form.children = []) : (Node.ofForm id form position).places = [position] := by
  rw [places_front hf, hc]
  rfl

theorem places_between {id : String} {form : Form} {position : Position} {left : Node}
    {rest : List Node} (h : form.ahead = 1) (hc : form.children = left :: rest) :
    (Node.ofForm id form position).places = left.places ++ [position] ++ placesOf rest := by
  rw [Node.places_eq]
  simp [Node.ofForm, Node.form, Node.children, Node.position, h, hc]

/-- The walk of a tree finds the same places, but a node before its operands. -/
theorem Node.perm_places (depth : Nat) (node : Node) :
    ((node.walk depth).map (·.2.position)).Perm node.places := by
  rw [walk_eq, List.map_cons, List.map_flatMap, places_eq]
  refine .trans (.cons _ ?_) List.perm_middle.symm
  rw [← placesOf_append, List.take_append_drop]
  exact .flatMap_left _ fun child hm => child.perm_places (depth + 1)
termination_by node
decreasing_by exact Node.sizeOf_lt_of_mem hm

theorem Node.sublist_places (node : Node) : (placesOf node.children).Sublist node.places := by
  conv => lhs; rw [← List.take_append_drop node.form.ahead node.children, placesOf_append]
  rw [places_eq]
  exact (List.sublist_cons_self ..).append_left _

def Node.Precedes (node other : Node) : Prop :=
  ∀ a ∈ node.walk 0, ∀ b ∈ other.walk 0, a.2.position.Before b.2.position

theorem precedes_of_places {nodes : List Node} (h : (placesOf nodes).Pairwise Position.Before) :
    nodes.Pairwise Node.Precedes := by
  refine (List.pairwise_flatMap.1 h).2.imp fun {node other} hb a ha b hb' => ?_
  exact hb _ ((node.perm_places 0).mem_iff.1 (List.mem_map_of_mem ha))
    _ ((other.perm_places 0).mem_iff.1 (List.mem_map_of_mem hb'))

theorem Node.everywhere_precedes (node : Node) (h : node.places.Pairwise Position.Before) :
    node.Everywhere fun node => node.children.Pairwise Precedes := by
  have hc := h.sublist node.sublist_places
  refine everywhere_iff.2 ⟨precedes_of_places hc, fun child hm => ?_⟩
  exact child.everywhere_precedes ((List.pairwise_flatMap.1 hc).1 child hm)
termination_by node
decreasing_by exact Node.sizeOf_lt_of_mem hm

/-! ## Places that are moved over -/

def Parser.places (p : Parser) : List Position :=
  ((p.current.token :: p.unread).filter fun token => token.kind ≠ .ending).map (·.position)

theorem Parser.places_start (tokens : List Token) : (Parser.start tokens).places =
    (tokens.filter fun token => token.kind ≠ .ending).map (·.position) := rfl

/-- With the places that are given, what is moved over between the two states has these places. -/
structure Parser.Covers (given places : List Position) (p q : Parser) : Prop where
  settled : q.Settled
  covers : ∃ taken, p.places = taken ++ q.places ∧ places.Sublist (given ++ taken)

namespace Parser.Covers

variable {given places more : List Position} {p q r : Parser}

theorem refl (given : List Position) (hp : p.Settled) : p.Covers given given p :=
  ⟨hp, [], rfl, List.sublist_append_left ..⟩

theorem trans (h : p.Covers given places q) (h' : q.Covers places more r) : p.Covers given more r := by
  obtain ⟨taken, hpq, hs⟩ := h.covers
  obtain ⟨later, hqr, hs'⟩ := h'.covers
  refine ⟨h'.settled, taken ++ later, by rw [hpq, hqr, List.append_assoc], ?_⟩
  rw [← List.append_assoc]
  exact hs'.trans (hs.append_right later)

theorem after (given : List Position) (h : p.Covers [] places q) :
    p.Covers given (given ++ places) q := by
  obtain ⟨taken, hpq, hs⟩ := h.covers
  exact ⟨h.settled, taken, hpq, hs.append_left given⟩

theorem append (h : p.Covers given places q) (h' : q.Covers [] more r) :
    p.Covers given (places ++ more) r := h.trans (h'.after places)

theorem loosen (h : p.Covers given places q) (hs : more.Sublist places) : p.Covers given more q := by
  obtain ⟨taken, hpq, hs'⟩ := h.covers
  exact ⟨h.settled, taken, hpq, hs.trans hs'⟩

theorem skip (h : p.Covers given places q) (h' : q.Covers [] more r) : p.Covers given places r :=
  (h.append h').loosen (List.sublist_append_left ..)

end Parser.Covers

section
variable {table : SymbolTable} {p q : Parser} {t : SymbolToken}

theorem places_of_moveOn (h : moveOn table p = (.ok t, q)) : p.places =
    (if p.current.token.kind = .ending then [] else [p.current.position]) ++ q.places := by
  have hq : q.places = (p.unread.filter fun token => token.kind ≠ .ending).map (·.position) := by
    obtain ⟨-, ⟨hu, rfl⟩ | ⟨token, rest, id, hu, hc, rfl⟩⟩ := moveOn_eq_ok h
    · rw [hu]
      rfl
    · rw [hu]
      rfl
  rw [hq, Parser.places, List.filter_cons, SymbolToken.position]
  by_cases hk : p.current.token.kind = .ending <;> simp [hk]

theorem covers_of_moveOn (h : moveOn table p = (.ok t, q)) (hk : p.current.token.kind ≠ .ending) :
    p.Covers [] [t.position] q := by
  refine ⟨settled_of_moveOn h, [t.position], ?_, .refl _⟩
  rw [places_of_moveOn h, if_neg hk, current_of_moveOn h]

theorem pass_of_moveOn (h : moveOn table p = (.ok t, q)) : p.Covers [] [] q :=
  ⟨settled_of_moveOn h, _, places_of_moveOn h, List.nil_sublist _⟩

theorem covers_of_same (hp : p.Settled) (h : q.current = p.current ∧ q.unread = p.unread) :
    p.Covers [] [] q := by
  refine ⟨hp.congr h.1, [], ?_, .refl _⟩
  simp only [Parser.places, h.1, h.2, List.nil_append]

end

namespace Phrase

def given : Phrase → List Position
  | climb _ left _ => left.places
  | operand _ token _ | ruled _ token _ => [token.position]
  | operation _ token left _ _ => left.places ++ [token.position]
  | _ => []

def places : Phrase → List Position
  | expression _ node | climb _ _ node | operand _ _ node | operation _ _ _ _ node
  | condition node => node.places
  | element _ nodes | list _ nodes | upTo _ _ nodes | statements nodes => placesOf nodes
  | functionName _ => []
  | statement read | ruled _ _ read | alternative read | blockBody read | block read =>
    placesOf read.toList

end Phrase

section
variable {p q r : Parser} {t : SymbolToken} {form : Form} {given : List Position}

theorem covers_single {node : Node} (h : p.Covers given node.places q) :
    p.Covers given (placesOf [node]) q := by
  rwa [placesOf_singleton]

theorem covers_leaf {id : String} {position : Position} (hp : p.Settled) (hf : form.ahead = 0)
    (hc : form.children = []) : p.Covers [position] (Node.ofForm id form position).places p := by
  rw [places_leaf hf hc]
  exact .refl _ hp

theorem covers_front (hf : form.ahead = 0) (h : p.Covers [] (placesOf form.children) q) :
    p.Covers [t.position] (t.node form).places q := by
  rw [SymbolToken.node, places_front hf]
  exact h.after _

theorem covers_between {left : Node} {rest : List Node} (hf : form.ahead = 1)
    (hc : form.children = left :: rest) (h : p.Covers [] (placesOf rest) q) :
    p.Covers (left.places ++ [t.position]) (t.node form).places q := by
  rw [SymbolToken.node, places_between hf hc]
  exact h.after _

end

section
variable {table : SymbolTable} {p q r : Parser} {t : SymbolToken} {id : String}

theorem pass_of_expect (h : (standard table).expect id p = (.ok t, q)) : p.Covers [] [] q :=
  pass_of_moveOn (expect_eq_ok.1 h).2

theorem pass_of_reserve {u : Unit} (hp : p.Settled)
    (h : (standard table).reserve t p = (.ok u, q)) : p.Covers [] [] q :=
  covers_of_same hp (unmoved_of_reserve h)

theorem pass_of_openScope {u : Unit} (hp : p.Settled)
    (h : (standard table).openScope p = (.ok u, q)) : p.Covers [] [] q :=
  covers_of_same hp (unmoved_of_openScope h)

theorem pass_of_scopeEnd (hp : p.Settled) (h : (standard table).expectScopeEnd id p = (.ok t, q)) :
    p.Covers [] [] q := by
  obtain ⟨-, u, r, hc, hm⟩ := expectScopeEnd_eq_ok.1 h
  exact (covers_of_same hp (unmoved_of_closeScope hc)).skip (pass_of_moveOn hm)

theorem covers_of_declare {node : Node} (hp : p.Settled) (hn : p.current.isName = true)
    (hd : (standard table).define p.current p = (.ok node, q))
    (hm : (standard table).advance q = (.ok t, r)) : p.Covers [] node.places r := by
  obtain ⟨scopes, -, rfl, rfl⟩ := standard_define_eq_ok.1 hd
  have hq : p.Covers [] [] { p with scopes } := covers_of_same hp ⟨rfl, rfl⟩
  have hr := hq.append (covers_of_moveOn hm (SymbolToken.kind_ne_of_isName hn))
  rw [SymbolToken.asName, Node.ofName, places_leaf rfl rfl]
  rwa [current_of_moveOn hm] at hr

/-- **What a phrase has read is placed as its tokens are.** -/
theorem covers_of_reads (ht : table.Ends) {phrase : Phrase}
    (h : Reads table (standard table) phrase p q) (hp : p.Settled) :
    p.Covers phrase.given phrase.places q := by
  induction h with
  | expression hm hr _ _ ih₁ ih₂ =>
    -- what has a rule is not the end, so it is moved over with a place
    have hk := hp.kind_ne fun hid => by
      rw [current_of_moveOn hm, hid, ht.prefixRule] at hr
      cases hr
    have h₁ := covers_of_moveOn hm hk
    have h₂ := ih₁ h₁.settled
    exact (h₁.trans h₂).trans (ih₂ h₂.settled)
  | stay => exact .refl _ hp
  | climb hpow hm _ _ _ _ ih₁ ih₂ =>
    have hk := hp.kind_ne fun hid => by
      rw [hid, ht.power] at hpow
      exact Nat.not_lt_zero _ hpow
    have h₁ := covers_of_moveOn hm hk
    have h₂ := ih₁ h₁.settled
    exact ((h₁.after _).trans h₂).trans (ih₂ h₂.settled)
  | name | number | string => exact covers_leaf hp rfl rfl
  | self hr | constant hr => exact (covers_leaf hp rfl rfl).skip (pass_of_reserve hp hr)
  | unary hr _ ih =>
    have h₁ := pass_of_reserve hp hr
    exact covers_front rfl (covers_single (h₁.append (ih h₁.settled)))
  | grouping _ hm ih =>
    have h₁ := (ih hp).skip (pass_of_expect hm)
    exact (h₁.after _).loosen (List.sublist_append_right ..)
  | array _ ih | object _ ih => exact covers_front rfl (ih hp)
  | function ho _ hs _ hb _ hm ih₁ ih₂ ih₃ =>
    -- the name of a function is no node
    have h₁ := pass_of_openScope hp ho
    have h₂ := (h₁.skip (ih₁ h₁.settled)).skip (pass_of_expect hs)
    have h₃ := (h₂.append (ih₂ h₂.settled)).skip (pass_of_expect hb)
    have h₄ := h₃.append (ih₃ h₃.settled)
    have h₅ := h₄.skip (pass_of_scopeEnd h₄.settled hm)
    refine covers_front rfl ?_
    rw [Form.children, placesOf_append, Statements.toList_ofList]
    exact h₅
  | anonymous => exact .refl _ hp
  | named hn hd hm => exact (covers_of_declare hp hn hd hm).loosen (List.nil_sublist _)
  | binary _ ih | binaryRight _ ih | assignment _ _ ih =>
    exact covers_between rfl rfl (covers_single (ih hp))
  | ternary _ hm _ ih₁ ih₂ =>
    have h₁ := (ih₁ hp).skip (pass_of_expect hm)
    exact covers_between rfl rfl (h₁.append (covers_single (ih₂ h₁.settled)))
  | member hn hm =>
    have h₁ := covers_of_moveOn hm (SymbolToken.kind_ne_of_isName hn)
    refine covers_between rfl rfl (covers_single ?_)
    rwa [Node.ofValue, places_leaf rfl rfl]
  | index _ hm ih =>
    exact covers_between rfl rfl (covers_single ((ih hp).skip (pass_of_expect hm)))
  | call _ _ ih => exact covers_between rfl rfl (ih hp)
  | item _ ih => exact covers_single (ih hp)
  | entry _ hl hm _ ih =>
    have h₁ := (pass_of_moveOn hl).skip (pass_of_expect hm)
    refine covers_single ?_
    rw [Node.places_withKey]
    exact h₁.append (ih h₁.settled)
  | parameter hn hd hm => exact covers_single (covers_of_declare hp hn hd hm)
  | uninitialised hn hd hm => exact (covers_of_declare hp hn hd hm).loosen (List.nil_sublist _)
  | initialised hn hd hm hid hs _ ih =>
    have h₁ := covers_of_declare hp hn hd hm
    have h₂ := h₁.append (covers_of_moveOn hs (h₁.settled.kind_ne (by rw [hid]; decide)))
    exact covers_single (h₂.trans (covers_between rfl rfl (covers_single (ih h₂.settled))))
  | last _ _ ih => exact ih hp
  | more _ _ hm _ ih₁ ih₂ =>
    have h₁ := (ih₁ hp).skip (pass_of_expect hm)
    rw [Phrase.places, placesOf_append]
    exact h₁.append (ih₂ h₁.settled)
  | closed _ hm => exact pass_of_expect hm
  | filled _ _ hm ih => exact (ih hp).skip (pass_of_expect hm)
  | expressionStatement _ _ _ hm ih => exact covers_single ((ih hp).skip (pass_of_expect hm))
  | ruled hr hm hres _ ih =>
    have hk := hp.kind_ne fun hid => by
      rw [hid, ht.statementRule] at hr
      cases hr
    have h₁ := covers_of_moveOn hm hk
    have h₂ := h₁.skip (pass_of_reserve h₁.settled hres)
    exact h₂.trans (ih h₂.settled)
  | @blockStatement p q token body _ ih =>
    -- an empty block is left out, and its bracket stands for no node
    by_cases hempty : body.isEmpty = true
    · rw [if_pos hempty]
      exact ((ih hp).after _).loosen (List.nil_sublist _)
    · rw [if_neg hempty]
      exact covers_single (covers_front rfl (ih hp))
  | declaration _ hm ih =>
    have h₁ := (ih hp).skip (pass_of_expect hm)
    rw [Phrase.places, Statements.toList_ofList]
    exact (h₁.after _).loosen (List.sublist_append_right ..)
  | whileLoop _ _ ih₁ ih₂ =>
    have h₁ := ih₁ hp
    exact covers_single (covers_front rfl (h₁.append (ih₂ h₁.settled)))
  | ifElse _ _ _ ih₁ ih₂ ih₃ =>
    have h₁ := ih₁ hp
    have h₂ := ih₂ h₁.settled
    have h₃ := h₂.append (ih₃ h₂.settled)
    rw [Phrase.places, Phrase.places, ← placesOf_append] at h₃
    exact covers_single (covers_front rfl (h₁.append h₃))
  | breakOut hm | returnNothing _ hm =>
    exact covers_single (covers_front rfl (pass_of_expect hm))
  | returnValue _ _ hm _ ih =>
    exact covers_single (covers_front rfl (covers_single ((ih hp).skip (pass_of_expect hm))))
  | condition hs _ hm ih =>
    have h₁ := pass_of_expect hs
    exact (h₁.append (ih h₁.settled)).skip (pass_of_expect hm)
  | noAlternative => exact .refl _ hp
  | elseIf _ hr hm _ _ ih | elseBlock _ hr hm _ _ ih =>
    have h₁ := (pass_of_reserve hp hr).skip (pass_of_expect hm)
    exact h₁.append (ih h₁.settled)
  | done => exact .refl _ hp
  | next _ _ _ ih₁ ih₂ =>
    have h₁ := ih₁ hp
    rw [Phrase.places, placesOf_append]
    exact h₁.append (ih₂ h₁.settled)
  | blockBody ho _ hm ih =>
    have h₁ := pass_of_openScope hp ho
    have h₂ := h₁.append (ih h₁.settled)
    rw [Phrase.places, Statements.toList_ofList]
    exact h₂.skip (pass_of_scopeEnd h₂.settled hm)
  | block hm _ ih =>
    have h₁ := pass_of_expect hm
    exact h₁.append (ih h₁.settled)

end

/-- The places of a tree are places of its tokens, in the same order. -/
theorem sublist_of_parseTokens {table : SymbolTable} (ht : table.Ends) {tokens : List Token}
    {tree : Statements} (h : parseTokens table tokens = .ok tree) :
    (placesOf tree.toList).Sublist (tokens.map (·.position)) := by
  obtain ⟨q, hrun⟩ := parseTokens_eq_ok.1 h
  obtain ⟨t, r, nodes, s, e, hm, hread, -, rfl⟩ := reads_of_script hrun
  have hstart := pass_of_moveOn hm
  have hcovers := hstart.append (covers_of_reads ht hread hstart.settled)
  obtain ⟨taken, hplaces, hs⟩ := hcovers.covers
  rw [Statements.toList_ofList]
  refine hs.trans ((List.sublist_append_left taken s.places).trans ?_)
  rw [← hplaces, Parser.places_start]
  exact List.filter_sublist.map _

/-- **Trees lie in source order**: every node stands at a token, no two nodes at the same one, and
of two siblings all that is below the earlier one stands before all that is below the later one. -/
theorem ordered_of_parseScript {script : String} {tree : Statements}
    (h : parseScript script = .ok tree) (hcounts : Position.Counts script.toList) :
    ∃ tokens, tokensOf .standard script = .ok tokens ∧
      (∀ visit ∈ tree.walk, ∃ token ∈ tokens, visit.2.position = token.position) ∧
      (tree.walk.map (·.2.position)).Nodup ∧ tree.toList.Pairwise Node.Precedes ∧
      ∀ visit ∈ tree.walk, visit.2.children.Pairwise Node.Precedes := by
  obtain ⟨tokens, htokens, hparse⟩ := parseScript_eq_ok.1 h
  have hs := sublist_of_parseTokens SymbolTable.ends_grammar hparse
  have horder := (pairwise_of_tokensOf htokens hcounts).sublist hs
  have hwalk : (tree.walk.map (·.2.position)).Perm (placesOf tree.toList) := by
    rw [Statements.walk, List.map_flatMap]
    exact .flatMap_left _ fun node _ => node.perm_places 0
  refine ⟨tokens, htokens, fun visit hv => ?_, hwalk.nodup_iff.2 (horder.imp Position.Before.ne),
    precedes_of_places horder,
    (Statements.forall_walk (P := fun node => node.children.Pairwise Node.Precedes)).2 ?_⟩
  · obtain ⟨token, ht, hp⟩ := List.mem_map.1 (hs.subset (hwalk.mem_iff.1 (List.mem_map_of_mem hv)))
    exact ⟨token, ht, hp.symm⟩
  · intro node hm
    exact node.everywhere_precedes ((List.pairwise_flatMap.1 horder).1 node hm)

theorem ordered_of_parseScript_at_call :
    let tree : Statements := .single (.ofForm "(" (.call (.ofName "f" ⟨1, 1⟩)
      [.ofForm "+" (.binary (.ofName "x" ⟨1, 3⟩) (.ofName "y" ⟨1, 7⟩)) ⟨1, 5⟩,
        .ofName "z" ⟨2, 1⟩]) ⟨1, 2⟩)
    parseScript "f(x + y,\nz);" = .ok tree ∧ Position.Counts "f(x + y,\nz);".toList ∧
      ∃ tokens, tokensOf .standard "f(x + y,\nz);" = .ok tokens ∧
        (∀ visit ∈ tree.walk, ∃ token ∈ tokens, visit.2.position = token.position) ∧
        (tree.walk.map (·.2.position)).Nodup ∧ tree.toList.Pairwise Node.Precedes ∧
        ∀ visit ∈ tree.walk, visit.2.children.Pairwise Node.Precedes := by
  intro tree
  have htokens : tokensOf .standard "f(x + y,\nz);" = .ok [⟨.name, "f", ⟨1, 1⟩⟩,
      ⟨.operator, "(", ⟨1, 2⟩⟩, ⟨.name, "x", ⟨1, 3⟩⟩, ⟨.operator, "+", ⟨1, 5⟩⟩,
      ⟨.name, "y", ⟨1, 7⟩⟩, ⟨.operator, ",", ⟨1, 8⟩⟩, ⟨.name, "z", ⟨2, 1⟩⟩,
      ⟨.operator, ")", ⟨2, 2⟩⟩, ⟨.operator, ";", ⟨2, 3⟩⟩, .ending ⟨2, 4⟩] :=
    eq_ok_of_toOption (by decide +kernel)
  have h : parseScript "f(x + y,\nz);" = .ok tree := by
    rw [parseScript, htokens]
    rfl
  have hcounts : Position.Counts "f(x + y,\nz);".toList := Position.counts_of_length (by decide)
  exact ⟨h, hcounts, ordered_of_parseScript h hcounts⟩

/-- With as many lines between them as the counter has numbers, two statements stand at the same
places. -/
theorem misplaced_statements_of_overflow :
    let script := "x = y;" ++ String.ofList (List.replicate UInt32.size '\n') ++ "x = y;"
    ∃ tree, parseScript script = .ok tree ∧ ¬(tree.walk.map (·.2.position)).Nodup := by
  intro script
  have hnewlines : (String.ofList (List.replicate UInt32.size '\n')).toList =
      List.replicate UInt32.size '\n' := String.toList_ofList
  have htext : script.toList =
      "x = y;".toList ++ (List.replicate UInt32.size '\n' ++ "x = y;".toList) := by
    rw [String.toList_append, String.toList_append, hnewlines, List.append_assoc]
  let tokens : List Token := [⟨.name, "x", ⟨1, 1⟩⟩, ⟨.operator, "=", ⟨1, 3⟩⟩,
    ⟨.name, "y", ⟨1, 5⟩⟩, ⟨.operator, ";", ⟨1, 6⟩⟩]
  have hscans : Piece.Scans .standard "x = y;".toList [.word .name ['x'], .gap [' '],
      .word .operator ['='], .gap [' '], .word .name ['y'], .word .operator [';']] [] :=
    .step rfl (.step rfl (.step rfl (.step rfl (.step rfl (.step rfl .done)))))
  have hend : tokensOf .standard "x = y;" = .ok (tokens ++ [.ending ⟨1, 7⟩]) :=
    tokensFrom_of_end hscans
  have hlines : ∀ c ∈ (List.replicate UInt32.size '\n' ++ "x = y;".toList).head?, c = '\n' := by
    intro c hc
    rw [List.head?_append, List.head?_replicate, if_neg (by decide)] at hc
    cases hc
    rfl
  have htokens : tokensOf .standard script = .ok (tokens ++ (tokens ++ [.ending ⟨1, 7⟩])) := by
    rw [tokensOf_eq, htext, tokensFrom_append (by decide) hscans hlines,
      tokensFrom_newlines (by decide)]
    exact congrArg (Except.map (tokens ++ ·)) hend
  let statement : Node := .ofForm "=" (.assignment (.ofName "x" ⟨1, 1⟩) (.ofName "y" ⟨1, 5⟩)) ⟨1, 3⟩
  have hparse : parseScript script = .ok (.sequence [statement, statement]) := by
    rw [parseScript, htokens]
    rfl
  refine ⟨_, hparse, fun hnodup => ?_⟩
  rw [Statements.walk, Statements.toList, List.map_flatMap, List.flatMap_cons, List.flatMap_singleton] at hnodup
  have hmem : statement.position ∈ (statement.walk 0).map (·.2.position) := by
    rw [Node.walk_eq]
    exact List.mem_cons_self
  exact (List.nodup_append.1 hnodup).2.2 _ hmem _ hmem rfl

end ScriptTree
