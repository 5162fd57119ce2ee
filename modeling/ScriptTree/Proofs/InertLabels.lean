import Mathlib.Data.List.Nodup
import ScriptTree.Proofs.Halting
import ScriptTree.Proofs.Renaming

/-!
# Labels are inert

A token that is taken as a label may get any other word, be it a keyword or a variable. Such a token
is classified like any other name, so the current symbol of the parse becomes another one; but no
rule looks at it before the label is taken. A reading that tells which of its tokens it takes as
labels is one with other words in their place (`repeats_of_reads`).
-/

namespace ScriptTree

open Parse Actions

/-! ## Other words -/

/-- Other words for some names, and the labels that tags stand for. -/
structure Rewording where
  token : Occurrence → Token
  label : String → String
  kind (o : Occurrence) : (token o).kind = o.token.kind
  position (o : Occurrence) : (token o).position = o.token.position
  word (o : Occurrence) : token o = o.token ∨ o.token.kind = .name ∧ isWord (token o).value = true

structure Use where
  place : Occurrence
  isLabel : Bool

namespace Rewording

variable (w : Rewording)

def Fixes (p : Parser) : Prop := w.token p.here = p.current.token

def reword (p : Parser) : Parser := { p with unread := (occurrences p.unread).map w.token }

/-- The second parser stands at the same tokens with other words. What it reads the current one as
may differ if that has another word; it is no bracket then. -/
structure Reworded (p q : Parser) : Prop where
  state : ∃ id, q = { w.reword p with current := ⟨id, w.token p.here⟩ }
  id : w.Fixes p → q.current.id = p.current.id
  close {bracket : Bracket} : q.current.id = bracket.close → p.current.id = bracket.close

def Allows (tag : Occurrence → String) (use : Use) : Prop :=
  if use.isLabel then w.label (tag use.place) = (w.token use.place).value
  else w.token use.place = use.place.token

theorem fixes_of_kind {p : Parser} (h : p.current.token.kind ≠ .name) : w.Fixes p :=
  (w.word p.here).resolve_right fun hw => h hw.1

theorem reworded_self {p : Parser} (h : w.Fixes p) : w.Reworded p (w.reword p) where
  state := ⟨p.current.id, by rw [show w.token _ = _ from h]; rfl⟩
  id _ := rfl
  close h := h

variable {w}

theorem Reworded.eq {p q : Parser} (h : w.Reworded p q) (hp : w.Fixes p) : q = w.reword p := by
  obtain ⟨⟨id, rfl⟩, hid, -⟩ := h
  rw [show w.token _ = _ from hp, show id = p.current.id from hid hp]
  rfl

theorem Reworded.current {p q : Parser} (h : w.Reworded p q) :
    q.current.token = w.token p.here := by
  obtain ⟨⟨id, rfl⟩, -, -⟩ := h
  rfl

theorem Reworded.isName {p q : Parser} (h : w.Reworded p q) : q.current.isName = p.current.isName := by
  rw [SymbolToken.isName, Token.isName, h.current, w.kind]
  rfl

theorem Reworded.isLiteral {p q : Parser} (h : w.Reworded p q) :
    q.current.token.isLiteral = p.current.token.isLiteral := by
  rw [Token.isLiteral, h.current, w.kind]
  rfl

end Rewording

/-! ## Steps -/

section
variable {w : Rewording} {table : SymbolTable} {p q : Parser} {t : SymbolToken} {u : Unit}

theorem Bracket.not_isWord (bracket : Bracket) : isWord bracket.close = false := by
  cases bracket <;> decide +kernel

theorem resolve_ne_close {chain : ScopeChain} {text : String} (h : isWord text = true)
    (bracket : Bracket) : chain.resolve table text ≠ bracket.close := by
  have hword := bracket.not_isWord
  unfold ScopeChain.resolve
  split
  · rintro rfl
    rw [h] at hword
    cases hword
  · cases bracket <;> decide

/-- With another word a token is still read as something. -/
theorem classify_reworded {scopes : ScopeChain} {isLast : Bool} {o : Occurrence} {id : String}
    (h : classify table scopes isLast o.token = .ok id) :
    ∃ id', classify table scopes isLast (w.token o) = .ok id' ∧
      (w.token o = o.token → id' = id) ∧
      ∀ bracket : Bracket, id' = bracket.close → id = bracket.close := by
  rcases w.word o with hfixed | ⟨hname, hword⟩
  · rw [hfixed]
    exact ⟨id, h, fun _ => rfl, fun _ hid => hid⟩
  · refine ⟨scopes.resolve table (w.token o).value, ?_, fun hfixed => ?_, fun bracket hid => ?_⟩
    · unfold classify
      rw [w.kind, hname]
    · rw [hfixed]
      unfold classify at h
      rw [hname] at h
      exact Except.ok.inj h
    · exact absurd hid (resolve_ne_close hword bracket)

/-- Whatever the current token is read as, the next one is reached. -/
theorem moveOn_reworded {p' : Parser} (h : moveOn table p = (.ok t, q)) (hp : w.Reworded p p') :
    ∃ q', moveOn table p' = (.ok p'.current, q') ∧ w.Reworded q q' := by
  obtain ⟨⟨id, rfl⟩, -, -⟩ := hp
  obtain ⟨-, ⟨hu, rfl⟩ | ⟨token, rest, id, hu, hc, rfl⟩⟩ := moveOn_eq_ok h
  · refine ⟨_, ?_, w.reworded_self (w.fixes_of_kind fun hk => by cases hk)⟩
    simp only [moveOn, Rewording.reword, hu, occurrences, List.map_nil]
  · obtain ⟨id', hc', hsame, hclose⟩ := classify_reworded (w := w) (o := ⟨rest.length, token⟩) hc
    have hunread : (w.reword p).unread =
        w.token ⟨rest.length, token⟩ :: (occurrences rest).map w.token := by
      rw [Rewording.reword, hu, occurrences, List.map_cons]
    have hempty : rest.isEmpty = ((occurrences rest).map w.token).isEmpty := by cases rest <;> rfl
    rw [hempty] at hc'
    exact ⟨_, moveOn_of_classify hunread hc', ⟨id', rfl⟩, hsame, hclose _⟩

theorem reserve_reword (h : (standard table).reserve t p = (.ok u, q)) :
    (standard table).reserve t (w.reword p) = (.ok u, w.reword q) := by
  obtain ⟨scopes, hs, rfl⟩ := standard_reserve_eq_ok.1 h
  exact standard_reserve_eq_ok.2 ⟨scopes, hs, rfl⟩

theorem openScope_reword (h : (standard table).openScope p = (.ok u, q)) :
    (standard table).openScope (w.reword p) = (.ok u, w.reword q) := by
  cases standard_openScope_eq_ok.1 h
  exact standard_openScope_eq_ok.2 rfl

theorem closeScope_reword (h : (standard table).closeScope p = (.ok u, q)) :
    (standard table).closeScope (w.reword p) = (.ok u, w.reword q) := by
  cases standard_closeScope_eq_ok.1 h
  exact standard_closeScope_eq_ok.2 rfl

theorem define_reword {node : Node} (h : (standard table).define t p = (.ok node, q)) :
    (standard table).define t (w.reword p) = (.ok node, w.reword q) := by
  obtain ⟨scopes, hs, hn, rfl⟩ := standard_define_eq_ok.1 h
  exact standard_define_eq_ok.2 ⟨scopes, hs, hn, rfl⟩

end

/-! ## Phrases in other words -/

namespace Phrase

def respell (label : String → String) : Phrase → Phrase
  | expression power node => .expression power (node.respell id label)
  | climb power left node => .climb power (left.respell id label) (node.respell id label)
  | operand rule token node => .operand rule token (node.respell id label)
  | operation rule token left power node =>
    .operation rule token (left.respell id label) power (node.respell id label)
  | element kind nodes => .element kind (respellNodes id label nodes)
  | list kind nodes => .list kind (respellNodes id label nodes)
  | upTo bracket kind nodes => .upTo bracket kind (respellNodes id label nodes)
  | functionName name => .functionName name
  | statement read => .statement (read.respell id label)
  | ruled rule token read => .ruled rule token (read.respell id label)
  | condition node => .condition (node.respell id label)
  | alternative read => .alternative (read.respell id label)
  | statements nodes => .statements (respellNodes id label nodes)
  | blockBody body => .blockBody (body.respell id label)
  | block body => .block (body.respell id label)

def startsPlain : Phrase → Bool
  | operand rule _ _ => rule ≠ .object
  | operation rule _ _ _ _ => rule ≠ .member
  | element kind _ | list kind _ | upTo _ kind _ => kind ≠ .entries
  | _ => true

def earlier : Phrase → List String
  | climb _ left _ | operation _ _ left _ _ => left.labels
  | _ => []

def labels : Phrase → List String
  | expression _ node | climb _ _ node | operand _ _ node | operation _ _ _ _ node
  | condition node => node.labels
  | element _ nodes | list _ nodes | upTo _ _ nodes | statements nodes => labelsOf nodes
  | functionName _ => []
  | statement read | ruled _ _ read | alternative read | blockBody read | block read => read.labels

end Phrase

/-! ## Runs in other words -/

def Parser.remaining (p : Parser) : List Occurrence :=
  (occurrences (p.current.token :: p.unread)).filter fun o => o.token.kind ≠ .ending

def labelsIn (tag : Occurrence → String) (uses : List Use) : List String :=
  (uses.filter (·.isLabel)).map fun use => tag use.place

theorem labelsIn_append (tag : Occurrence → String) (uses later : List Use) :
    labelsIn tag (uses ++ later) = labelsIn tag uses ++ labelsIn tag later := by
  simp [labelsIn]

/-- What is moved over between the two states has these labels, behind those that are given. If each
of its tokens has a word that its use allows, then it can be read so again; a token that the second
state stands at must keep its word, and so must the first one unless a label is taken there. -/
structure Parser.Repeats (tag : Occurrence → String) (plain : Bool) (given labels : List String)
    (again : Rewording → Parser → Prop) (p q : Parser) : Prop where
  settled : q.Settled
  repeats : ∃ uses : List Use, p.remaining = uses.map (·.place) ++ q.remaining ∧
    labels.Sublist (given ++ labelsIn tag uses) ∧
    ∀ w : Rewording, (∀ use ∈ uses, w.Allows tag use) → w.Fixes q →
      (plain = true → w.Fixes p) ∧ ∀ p', w.Reworded p p' → again w p'

namespace Parser.Repeats

variable {tag : Occurrence → String} {plain : Bool} {given labels more : List String}
  {R S : Rewording → Parser → Prop} {p q r : Parser}

theorem refl (tag : Occurrence → String) (given : List String) (hp : p.Settled) :
    Repeats tag true given given (fun w p' => p' = w.reword p) p p :=
  ⟨hp, [], rfl, List.sublist_append_left .., fun _ _ hw => ⟨fun _ => hw, fun _ hp' => hp'.eq hw⟩⟩

theorem trans (h : Repeats tag plain given labels R p q) (h' : Repeats tag true labels more S q r) :
    Repeats tag plain given more (fun w p' => R w p' ∧ S w (w.reword q)) p r := by
  obtain ⟨uses, hpq, hs, hR⟩ := h.repeats
  obtain ⟨later, hqr, hs', hS⟩ := h'.repeats
  refine ⟨h'.settled, uses ++ later, ?_, ?_, fun w hallow hr => ?_⟩
  · rw [hpq, hqr, List.map_append, List.append_assoc]
  · rw [labelsIn_append, ← List.append_assoc]
    exact hs'.trans (hs.append_right _)
  · obtain ⟨hq, hagain⟩ := hS w (fun use hu => hallow use (List.mem_append_right _ hu)) hr
    have hfix : w.Fixes q := hq rfl
    obtain ⟨hp, hagain'⟩ := hR w (fun use hu => hallow use (List.mem_append_left _ hu)) hfix
    exact ⟨hp, fun p' hp' => ⟨hagain' p' hp', hagain _ (w.reworded_self hfix)⟩⟩

theorem after (given : List String) (h : Repeats tag plain [] labels R p q) :
    Repeats tag plain given (given ++ labels) R p q := by
  obtain ⟨uses, hpq, hs, hR⟩ := h.repeats
  exact ⟨h.settled, uses, hpq, hs.append_left given, hR⟩

theorem append (h : Repeats tag plain given labels R p q) (h' : Repeats tag true [] more S q r) :
    Repeats tag plain given (labels ++ more) (fun w p' => R w p' ∧ S w (w.reword q)) p r :=
  h.trans (h'.after labels)

theorem loosen (h : Repeats tag plain given labels R p q) (hs : more.Sublist labels) :
    Repeats tag plain given more R p q := by
  obtain ⟨uses, hpq, hs', hR⟩ := h.repeats
  exact ⟨h.settled, uses, hpq, hs.trans hs', hR⟩

theorem skip (h : Repeats tag plain given labels R p q) (h' : Repeats tag true [] more S q r) :
    Repeats tag plain given labels (fun w p' => R w p' ∧ S w (w.reword q)) p r :=
  (h.append h').loosen (List.sublist_append_left ..)

theorem imp (h : Repeats tag plain given labels R p q)
    (hRS : ∀ w p', w.Reworded p p' → R w p' → S w p') : Repeats tag plain given labels S p q := by
  obtain ⟨uses, hpq, hs, hR⟩ := h.repeats
  refine ⟨h.settled, uses, hpq, hs, fun w hallow hq => ?_⟩
  obtain ⟨hp, hagain⟩ := hR w hallow hq
  exact ⟨hp, fun p' hp' => hRS w p' hp' (hagain p' hp')⟩

/-- Where no label is taken at first, only the state with the same current symbol matters. -/
theorem imp_self (h : Repeats tag true given labels R p q)
    (hRS : ∀ w, R w (w.reword p) → S w (w.reword p)) : Repeats tag true given labels S p q := by
  obtain ⟨uses, hpq, hs, hR⟩ := h.repeats
  refine ⟨h.settled, uses, hpq, hs, fun w hallow hq => ?_⟩
  obtain ⟨hp, hagain⟩ := hR w hallow hq
  have hfix : w.Fixes p := hp rfl
  refine ⟨hp, fun p' hp' => ?_⟩
  rw [hp'.eq hfix]
  exact hRS w (hagain _ (w.reworded_self hfix))

theorem weaken (h : Repeats tag true given labels R p q) (plain : Bool) :
    Repeats tag plain given labels R p q := by
  obtain ⟨uses, hpq, hs, hR⟩ := h.repeats
  refine ⟨h.settled, uses, hpq, hs, fun w hallow hq => ?_⟩
  obtain ⟨hp, hagain⟩ := hR w hallow hq
  exact ⟨fun _ => hp rfl, hagain⟩

end Parser.Repeats

section
variable (tag : Occurrence → String) {table : SymbolTable} {p q r : Parser} {t : SymbolToken} {u : Unit}
  {id : String}

def Parser.use (p : Parser) (isLabel : Bool) : List Use :=
  if p.current.token.kind = .ending then [] else [⟨p.here, isLabel⟩]

theorem uses_of_moveOn (isLabel : Bool) (h : moveOn table p = (.ok t, q)) :
    p.remaining = (p.use isLabel).map (·.place) ++ q.remaining := by
  have hq : q.remaining = (occurrences p.unread).filter fun o => o.token.kind ≠ .ending := by
    obtain ⟨-, ⟨hu, rfl⟩ | ⟨token, rest, id, hu, hc, rfl⟩⟩ := moveOn_eq_ok h
    · rw [hu]
      rfl
    · rw [hu]
      rfl
  rw [hq, Parser.remaining, occurrences, List.filter_cons, Parser.use]
  by_cases hk : p.current.token.kind = .ending
  · simp [hk]
  · simp [hk, Parser.here]

theorem fixes_of_use {w : Rewording} (h : ∀ use ∈ p.use false, w.Allows tag use) : w.Fixes p := by
  unfold Parser.use at h
  split at h
  · rename_i hk
    exact w.fixes_of_kind (by rw [hk]; decide)
  · exact h _ (List.mem_singleton_self _)

theorem labelsIn_use (p : Parser) : labelsIn tag (p.use false) = [] := by
  unfold Parser.use
  split <;> rfl

/-- A token that is moved over keeps its word, but the next one may have another. -/
theorem Parser.Repeats.behind {tag : Occurrence → String} {plain : Bool} {given labels : List String}
    {S : Rewording → Parser → Prop} (hm : moveOn table p = (.ok t, q))
    (h : Repeats tag plain given labels S q r) :
    Repeats tag true given labels (fun w p' => ∃ q', moveOn table p' = (.ok t, q') ∧ S w q') p r := by
  obtain ⟨uses, hqr, hs, hS⟩ := h.repeats
  refine ⟨h.settled, p.use false ++ uses, ?_, ?_, fun w hallow hr => ?_⟩
  · rw [uses_of_moveOn false hm, hqr, List.map_append, List.append_assoc]
  · rwa [labelsIn_append, labelsIn_use, List.nil_append]
  · have hp : w.Fixes p := fixes_of_use tag fun use hu => hallow use (List.mem_append_left _ hu)
    refine ⟨fun _ => hp, fun p' hp' => ?_⟩
    obtain ⟨q', hm', hq'⟩ := moveOn_reworded hm hp'
    obtain ⟨-, hagain⟩ := hS w (fun use hu => hallow use (List.mem_append_right _ hu)) hr
    refine ⟨q', ?_, hagain q' hq'⟩
    rw [hm', hp'.eq hp, current_of_moveOn hm]
    rfl

theorem repeats_of_moveOn (hm : moveOn table p = (.ok t, q)) :
    Parser.Repeats tag true [] [] (fun w p' => moveOn table p' = (.ok t, w.reword q)) p q := by
  refine (Parser.Repeats.behind hm (.refl tag [] (settled_of_moveOn hm))).imp ?_
  rintro w p' - ⟨_, hm', rfl⟩
  exact hm'

theorem repeats_of_expect (h : (standard table).expect id p = (.ok t, q)) :
    Parser.Repeats tag true [] [] (fun w p' => (standard table).expect id p' = (.ok t, w.reword q))
      p q := by
  obtain ⟨hid, hm⟩ := expect_eq_ok.1 h
  exact (repeats_of_moveOn tag hm).imp_self (fun w hm' => expect_eq_ok.2 ⟨hid, hm'⟩)

theorem repeats_of_same (hp : p.Settled) (h : q.current = p.current ∧ q.unread = p.unread) :
    Parser.Repeats tag true [] [] (fun w p' => p' = w.reword p) p q := by
  refine ⟨hp.congr h.1, [], ?_, .refl _, fun w _ hw => ?_⟩
  · simp only [Parser.remaining, h.1, h.2, List.map_nil, List.nil_append]
  · unfold Rewording.Fixes Parser.here at hw
    rw [h.1, h.2] at hw
    exact ⟨fun _ => hw, fun _ hp' => hp'.eq hw⟩

theorem repeats_of_reserve (table : SymbolTable) (hp : p.Settled)
    (h : (standard table).reserve t p = (.ok u, q)) :
    Parser.Repeats tag true [] [] (fun w p' => (standard table).reserve t p' = (.ok u, w.reword q))
      p q :=
  (repeats_of_same tag hp (unmoved_of_reserve h)).imp_self fun _ _ => reserve_reword h

theorem repeats_of_openScope (table : SymbolTable) (hp : p.Settled)
    (h : (standard table).openScope p = (.ok u, q)) :
    Parser.Repeats tag true [] [] (fun w p' => (standard table).openScope p' = (.ok u, w.reword q))
      p q :=
  (repeats_of_same tag hp (unmoved_of_openScope h)).imp_self fun _ _ => openScope_reword h

theorem repeats_of_scopeEnd (hp : p.Settled)
    (h : (standard table).expectScopeEnd id p = (.ok t, q)) :
    Parser.Repeats tag true [] []
      (fun w p' => (standard table).expectScopeEnd id p' = (.ok t, w.reword q)) p q := by
  obtain ⟨hid, u, r, hc, hm⟩ := expectScopeEnd_eq_ok.1 h
  have hclose := repeats_of_same tag hp (unmoved_of_closeScope hc)
  refine (hclose.skip (repeats_of_moveOn tag hm)).imp_self (fun w hm' => ?_)
  exact expectScopeEnd_eq_ok.2 ⟨hid, u, _, closeScope_reword hc, hm'.2⟩

theorem repeats_of_declare {node : Node} (hp : p.Settled)
    (hd : (standard table).define p.current p = (.ok node, q))
    (hm : (standard table).advance q = (.ok t, r)) : node = p.current.asName ∧
    Parser.Repeats tag true [] [] (fun w p' =>
      (standard table).define p'.current p' = (.ok node, w.reword q) ∧
      (standard table).advance (w.reword q) = (.ok t, w.reword r)) p r := by
  obtain ⟨-, -, hname, -⟩ := standard_define_eq_ok.1 hd
  have hq := repeats_of_same tag hp (unmoved_of_define hd)
  exact ⟨hname, (hq.skip (repeats_of_moveOn tag hm)).imp_self fun w hm' => ⟨define_reword hd, hm'.2⟩⟩

theorem repeats_of_label (hk : p.current.token.kind ≠ .ending)
    (h : (labelling tag table).label p = (.ok t, q)) :
    Parser.Repeats tag false [] [t.value] (fun w p' =>
      (standard table).label p' = (.ok p'.current, w.reword q) ∧
      p'.current.value = w.label t.value ∧ p'.current.position = t.position) p q := by
  obtain ⟨a, r, hm, ha⟩ := bind_eq_ok.1 h
  obtain ⟨rfl, rfl⟩ := pure_eq_ok.1 ha
  have huse : p.use true = [⟨p.here, true⟩] := if_neg hk
  refine ⟨settled_of_moveOn hm, p.use true, uses_of_moveOn true hm, ?_, fun w hallow hq => ?_⟩
  · rw [huse]
    exact .refl _
  · refine ⟨fun hplain => (by cases hplain), fun p' hp' => ?_⟩
    obtain ⟨q', hm', hq'⟩ := moveOn_reworded hm hp'
    rw [hq'.eq hq] at hm'
    rw [huse] at hallow
    have hlabel := hallow _ (List.mem_singleton_self _)
    rw [SymbolToken.value, SymbolToken.position, hp'.current, w.position, current_of_moveOn hm]
    exact ⟨hm', hlabel.symm, rfl⟩

end

/-! ## Nodes in other words -/

theorem respellNodes_append (name label : String → String) (nodes more : List Node) :
    respellNodes name label (nodes ++ more) =
      respellNodes name label nodes ++ respellNodes name label more := by simp

theorem respell_ofList (label : String → String) (nodes : List Node) :
    (Statements.ofList nodes).respell id label = .ofList (respellNodes id label nodes) := by
  rw [Statements.respell_ofList, respellNodes_eq]

theorem toList_respell (label : String → String) (body : Statements) :
    (body.respell id label).toList = respellNodes id label body.toList := by
  rw [Statements.toList_respell, respellNodes_eq]

theorem respell_function (label : String → String) (t : SymbolToken) (name : Option String)
    (parameters nodes : List Node) :
    (t.node (.function name parameters (.ofList nodes))).respell id label =
      t.node (.function name (respellNodes id label parameters)
        (.ofList (respellNodes id label nodes))) := by
  rw [← respell_ofList]
  cases name <;> rfl

section
variable {tag : Occurrence → String} {plain : Bool} {given : List String}
  {R : Rewording → Parser → Prop} {p q : Parser} {t : SymbolToken} {form : Form} {node : Node}

theorem Parser.Repeats.single (h : Parser.Repeats tag plain given node.labels R p q) :
    Parser.Repeats tag plain given (labelsOf [node]) R p q := by
  rwa [labelsOf_singleton]

theorem Parser.Repeats.leaf (hp : p.Settled) (hl : node.labels = [])
    (hR : ∀ w, R w (w.reword p)) : Parser.Repeats tag true [] node.labels R p p := by
  rw [hl]
  exact (refl tag [] hp).imp_self fun w _ => hR w

theorem Parser.Repeats.made (hf : form.label? = none)
    (h : Parser.Repeats tag plain given (labelsOf form.children) R p q) :
    Parser.Repeats tag plain given (t.node form).labels R p q := by
  rwa [SymbolToken.node, labels_ofForm, hf, Option.toList_none, List.append_nil]

theorem Parser.Repeats.joined {left : Node} {rest : List Node} (hf : form.label? = none)
    (hc : form.children = left :: rest) (h : Parser.Repeats tag plain [] (labelsOf rest) R p q) :
    Parser.Repeats tag plain left.labels (t.node form).labels R p q := by
  refine .made hf ?_
  rw [hc]
  exact h.after left.labels

end

def Phrase.Again (table : SymbolTable) (phrase : Phrase) (q : Parser) (w : Rewording) (p' : Parser) :
    Prop :=
  Reads table (standard table) (phrase.respell w.label) p' (w.reword q)

/-- **What has been read can be read again in other words**, if these are put in place of labels. -/
theorem repeats_of_reads {tag : Occurrence → String} {table : SymbolTable} {phrase : Phrase}
    {p q : Parser} (h : Reads table (labelling tag table) phrase p q) (hp : p.Settled) :
    Parser.Repeats tag phrase.startsPlain phrase.earlier phrase.labels (phrase.Again table q) p q := by
  induction h with
  | expression hm hr _ _ ih₁ ih₂ =>
    have h₁ := Parser.Repeats.behind hm (ih₁ (settled_of_moveOn hm))
    have h₂ := h₁.trans (ih₂ h₁.settled)
    refine h₂.imp_self fun w h => ?_
    obtain ⟨⟨q', hm', ho⟩, hc⟩ := h
    exact .expression hm' hr ho hc
  | stay hpow => exact (Parser.Repeats.refl tag _ hp).imp_self fun w _ => .stay hpow
  | climb hpow hm hl hr _ _ ih₁ ih₂ =>
    have h₁ := Parser.Repeats.behind hm (ih₁ (settled_of_moveOn hm))
    have h₂ := h₁.trans (ih₂ h₁.settled)
    refine h₂.imp_self fun w h => ?_
    obtain ⟨⟨q', hm', ho⟩, hc⟩ := h
    exact .climb hpow hm' hl hr ho hc
  | name => exact .leaf hp (labels_asName _) fun w => .name
  | number hk hn => exact .leaf hp (labels_of_literal ..) fun w => .number hk hn
  | string hk => exact .leaf hp (labels_of_literal ..) fun w => .string hk
  | self hr => exact ((repeats_of_reserve tag table hp hr).imp_self fun w hr' => .self hr').made rfl
  | constant hr => exact ((repeats_of_reserve tag table hp hr).imp_self fun w hr' => .constant hr').made rfl
  | unary hr _ ih =>
    have h₁ := repeats_of_reserve tag table hp hr
    have h₂ := (h₁.append (ih h₁.settled)).single
    exact (h₂.imp_self fun w h => .unary h.1 h.2).made rfl
  | grouping _ hm ih =>
    exact ((ih hp).skip (repeats_of_expect tag hm)).imp_self fun w h => .grouping h.1 h.2
  | array _ ih => exact ((ih hp).imp fun w p' _ h => .array h).made rfl
  | object _ ih => exact ((ih hp).imp fun w p' _ h => .object h).made rfl
  | function ho _ hs _ hb _ hm ih₁ ih₂ ih₃ =>
    have h₁ := repeats_of_openScope tag table hp ho
    have h₂ := (h₁.skip (ih₁ h₁.settled)).skip (repeats_of_expect tag hs)
    have h₃ := (h₂.append (ih₂ h₂.settled)).skip (repeats_of_expect tag hb)
    have h₄ := h₃.append (ih₃ h₃.settled)
    have h₅ := h₄.skip (repeats_of_scopeEnd tag h₄.settled hm)
    refine .made rfl ?_
    rw [Form.children, labelsOf_append, Statements.toList_ofList]
    refine h₅.imp_self fun w h => ?_
    obtain ⟨⟨⟨⟨⟨⟨ho', hn'⟩, hs'⟩, hl'⟩, hb'⟩, hbody'⟩, hm'⟩ := h
    rw [Phrase.Again, Phrase.respell, respell_function]
    exact .function ho' hn' hs' hl' hb' hbody' hm'
  | anonymous hn => exact (Parser.Repeats.refl tag [] hp).imp_self fun w _ => .anonymous hn
  | named hn hd hm =>
    have h := (repeats_of_declare tag hp hd hm).2
    exact h.imp_self fun w h => .named (p := w.reword _) hn h.1 h.2
  | binary _ ih =>
    exact .joined rfl rfl ((ih hp).imp_self fun w he => .binary he).single
  | binaryRight _ ih =>
    exact .joined rfl rfl ((ih hp).imp_self fun w he => .binaryRight he).single
  | @assignment p q token left power value hl _ ih =>
    refine .joined rfl rfl ((ih hp).imp_self fun w he => .assignment ?_ he).single
    rwa [Node.form_respell, Form.isAssignable_respell]
  | ternary _ hm _ ih₁ ih₂ =>
    have h₁ := (ih₁ hp).skip (repeats_of_expect tag hm)
    have h₂ := h₁.append (ih₂ h₁.settled).single
    exact .joined rfl rfl (h₂.imp_self fun w h => .ternary h.1.1 h.1.2 h.2)
  | @member p q token left power label hn hl =>
    -- here and at an entry the first token may have another word, and be read as another symbol
    have h₁ := repeats_of_label tag (SymbolToken.kind_ne_of_isName hn) hl
    rw [Phrase.labels, labels_member]
    refine (h₁.after left.labels).imp fun w p' hp' h => ?_
    obtain ⟨hl', hv, hpos⟩ := h
    have hread : Reads table (standard table) (.operation .member token (left.respell id w.label)
      power _) p' (w.reword q) := .member (hp'.isName.trans hn) hl'
    rwa [hv, hpos] at hread
  | index _ hm ih =>
    have h₁ := (ih hp).skip (repeats_of_expect tag hm)
    exact .joined rfl rfl (h₁.imp_self fun w h => .index h.1 h.2).single
  | call hl _ ih =>
    refine .joined rfl rfl ((ih hp).imp_self fun w h => .call ?_ h)
    rwa [Node.form_respell, Form.isCallable_respell]
  | item _ ih => exact ((ih hp).imp_self fun w he => .item he).single
  | @entry p q r s label colon value hk hl hm _ ih =>
    have h₁ := (repeats_of_label tag (SymbolToken.kind_ne_of_isKey hk) hl).skip (repeats_of_expect tag hm)
    have h₂ := h₁.append (ih h₁.settled)
    refine ((h₂.loosen (value.labels_withKey _)).imp ?_).single
    rintro w p' hp' ⟨⟨⟨hl', hv, -⟩, hm'⟩, he⟩
    have hread := Reads.entry (by rwa [hp'.isName, hp'.isLiteral]) hl' hm' he
    rwa [hv, ← Node.respell_withKey] at hread
  | parameter hn hd hm =>
    obtain ⟨rfl, h⟩ := repeats_of_declare tag hp hd hm
    refine .single ?_
    rw [labels_asName]
    exact h.imp_self fun w h => .parameter (p := w.reword _) hn h.1 h.2
  | uninitialised hn hd hm hid =>
    have h := (repeats_of_declare tag hp hd hm).2
    exact h.imp_self fun w h => .uninitialised (p := w.reword _) hn h.1 h.2 hid
  | initialised hn hd hm hid hs _ ih =>
    obtain ⟨rfl, h⟩ := repeats_of_declare tag hp hd hm
    have h₁ := h.skip (repeats_of_moveOn tag hs)
    have h₂ := h₁.append (ih h₁.settled).single
    refine .single (.made rfl ?_)
    rw [Form.children, labelsOf_cons, labels_asName]
    refine h₂.imp_self fun w h => ?_
    obtain ⟨⟨⟨hd', hm'⟩, hs'⟩, he⟩ := h
    exact .initialised (p := w.reword _) hn hd' hm' hid hs' he
  | last _ hid ih => exact (ih hp).imp fun w p' _ h => .last h hid
  | more _ hid hm _ ih₁ ih₂ =>
    have hmove := (expect_eq_ok.1 hm).2
    have h₁ := ih₁ hp
    have h₂ := h₁.append (.behind hmove (ih₂ (settled_of_moveOn hmove)))
    rw [Phrase.labels, labelsOf_append]
    refine h₂.imp fun w p' _ h => ?_
    obtain ⟨he, q', hm', hl⟩ := h
    rw [Phrase.Again, Phrase.respell, respellNodes_append]
    exact .more he hid (expect_eq_ok.2 ⟨hid, hm'⟩) hl
  | closed hid hm =>
    exact ((repeats_of_expect tag hm).imp_self fun w hm' => .closed hid hm').weaken _
  | filled hid _ hm ih =>
    exact ((ih hp).skip (repeats_of_expect tag hm)).imp fun w p' hp' h =>
      .filled (fun hclose => hid (hp'.close hclose)) h.1 h.2
  | expressionStatement hr _ hf hm ih =>
    refine (((ih hp).skip (repeats_of_expect tag hm)).imp_self fun w h =>
      .expressionStatement hr h.1 ?_ h.2).single
    rwa [Node.form_respell, Form.isAssignment_respell, Form.isCall_respell]
  | ruled hr hm hres _ ih =>
    have h₁ := repeats_of_moveOn tag hm
    have h₂ := h₁.skip (repeats_of_reserve tag table h₁.settled hres)
    have h₃ := h₂.append (ih h₂.settled)
    exact h₃.imp_self fun w h => .ruled hr h.1.1 h.1.2 h.2
  | @blockStatement p q token body _ ih =>
    -- an empty block is left out
    by_cases hempty : body.isEmpty = true
    · rw [if_pos hempty]
      refine ((ih hp).loosen (List.nil_sublist _)).imp_self fun w hb => ?_
      have hread : Reads table (standard table) (.ruled .block token _) _ _ := .blockStatement hb
      rwa [Statements.isEmpty_respell, if_pos hempty] at hread
    · rw [if_neg hempty]
      refine (((ih hp).made rfl).single).imp_self fun w hb => ?_
      have hread : Reads table (standard table) (.ruled .block token _) _ _ := .blockStatement hb
      rwa [Statements.isEmpty_respell, if_neg hempty] at hread
  | declaration _ hm ih =>
    have h₁ := (ih hp).skip (repeats_of_expect tag hm)
    rw [Phrase.labels, Statements.labels, Statements.toList_ofList]
    refine h₁.imp_self fun w h => ?_
    rw [Phrase.Again, Phrase.respell, respell_ofList]
    exact .declaration h.1 h.2
  | whileLoop _ _ ih₁ ih₂ =>
    have h₁ := ih₁ hp
    have h₂ := h₁.append (ih₂ h₁.settled)
    exact ((h₂.imp_self fun w h => .whileLoop h.1 h.2).made rfl).single
  | ifElse _ _ _ ih₁ ih₂ ih₃ =>
    have h₁ := ih₁ hp
    have h₂ := ih₂ h₁.settled
    have h₃ := h₂.append (ih₃ h₂.settled)
    rw [Phrase.labels, Phrase.labels, Statements.labels, Statements.labels, ← labelsOf_append] at h₃
    exact (((h₁.append h₃).imp_self fun w h => .ifElse h.1 h.2.1 h.2.2).made rfl).single
  | breakOut hm hid =>
    exact (((repeats_of_expect tag hm).imp_self fun w hm' => .breakOut hm' hid).made rfl).single
  | returnNothing hid hm hend =>
    exact (((repeats_of_expect tag hm).imp_self fun w hm' => .returnNothing hid hm' hend).made rfl).single
  | returnValue hid _ hm hend ih =>
    have h₁ := ((ih hp).skip (repeats_of_expect tag hm)).single
    exact ((h₁.imp_self fun w h => .returnValue hid h.1 h.2 hend).made rfl).single
  | condition hs _ hm ih =>
    have h₁ := repeats_of_expect tag hs
    have h₂ := (h₁.append (ih h₁.settled)).skip (repeats_of_expect tag hm)
    exact h₂.imp_self fun w h => .condition h.1.1 h.1.2 h.2
  | noAlternative hid => exact (Parser.Repeats.refl tag [] hp).imp_self fun w _ => .noAlternative hid
  | elseIf hid hr hm hif _ ih =>
    have h₁ := (repeats_of_reserve tag table hp hr).skip (repeats_of_expect tag hm)
    have h₂ := h₁.append (ih h₁.settled)
    exact h₂.imp_self fun w h => .elseIf hid h.1.1 h.1.2 hif h.2
  | elseBlock hid hr hm hif _ ih =>
    have h₁ := (repeats_of_reserve tag table hp hr).skip (repeats_of_expect tag hm)
    have h₂ := h₁.append (ih h₁.settled)
    exact h₂.imp_self fun w h => .elseBlock hid h.1.1 h.1.2 hif h.2
  | done hid => exact (Parser.Repeats.refl tag [] hp).imp_self fun w _ => .done hid
  | next hid _ _ ih₁ ih₂ =>
    have h₁ := ih₁ hp
    have h₂ := h₁.append (ih₂ h₁.settled)
    rw [Phrase.labels, labelsOf_append]
    refine h₂.imp_self fun w h => ?_
    rw [Phrase.Again, Phrase.respell, respellNodes_append, ← toList_respell]
    exact .next hid h.1 h.2
  | blockBody ho _ hm ih =>
    have h₁ := repeats_of_openScope tag table hp ho
    have h₂ := h₁.append (ih h₁.settled)
    rw [Phrase.labels, Statements.labels, Statements.toList_ofList]
    refine (h₂.skip (repeats_of_scopeEnd tag h₂.settled hm)).imp_self fun w h => ?_
    rw [Phrase.Again, Phrase.respell, respell_ofList]
    exact .blockBody h.1.1 h.1.2 h.2
  | block hm _ ih =>
    have h₁ := repeats_of_expect tag hm
    exact (h₁.append (ih h₁.settled)).imp_self fun w h => .block h.1 h.2

/-! ## Scripts in other words -/

theorem reword_start (w : Rewording) (tokens : List Token) :
    w.reword (.start tokens) = .start ((occurrences tokens).map w.token) := by
  have hlast : ((occurrences tokens).map w.token).getLast?.map (·.position) =
      tokens.getLast?.map (·.position) := by
    conv => rhs; rw [← map_token_occurrences tokens]
    rw [List.getLast?_map, List.getLast?_map, Option.map_map, Option.map_map]
    exact congrArg (Option.map · _) (funext w.position)
  rw [Rewording.reword, Parser.start, Parser.start, hlast]

theorem parse_reworded {tag : Occurrence → String} {tokens : List Token} {tree : Statements}
    (h : parseLabelling tag tokens = .ok tree) : ∃ (uses : List Use) (s : Parser),
      ((occurrences tokens).filter fun o => o.token.kind ≠ .ending) =
        uses.map (·.place) ++ s.remaining ∧
      tree.labels.Sublist (labelsIn tag uses) ∧
      ∀ w : Rewording, (∀ use ∈ uses, w.Allows tag use) → w.Fixes s →
        parseTokens .grammar ((occurrences tokens).map w.token) = .ok (tree.respell id w.label) := by
  have hrun : Parse.script .grammar (labelling tag .grammar) (.start tokens) =
    (.ok tree, (Parse.script .grammar (labelling tag .grammar) (.start tokens)).2) := Prod.ext h rfl
  obtain ⟨t, r, nodes, s, e, hm, hread, he, rfl⟩ := reads_of_script hrun
  obtain ⟨uses, htokens, hs, hagain⟩ :=
    (Parser.Repeats.behind hm (repeats_of_reads hread (settled_of_moveOn hm))).repeats
  refine ⟨uses, s, htokens, ?_, fun w hallow hfix => ?_⟩
  · rwa [Statements.labels, Statements.toList_ofList]
  · have hstart : w.Reworded (.start tokens) (.start ((occurrences tokens).map w.token)) := by
      rw [← reword_start]
      exact w.reworded_self (w.fixes_of_kind fun hk => by cases hk)
    obtain ⟨q', hm', hread'⟩ := (hagain w hallow hfix).2 _ hstart
    obtain ⟨hid, hend⟩ := expect_eq_ok.1 he
    obtain ⟨q'', hend', -⟩ := moveOn_reworded hend (w.reworded_self hfix)
    have hscript := script_of_reads SymbolTable.ends_grammar hm' hread'
      (expect_eq_ok.2 ⟨hid, hend'⟩)
    rw [respell_ofList]
    exact parseTokens_eq_ok.2 ⟨_, hscript⟩

def Occurrence.reword (labels : List Occurrence) (word : Occurrence → String) (o : Occurrence) :
    Token :=
  if o ∈ labels ∧ o.token.kind = .name then { o.token with value := word o } else o.token

theorem Occurrence.reword_of_not_mem {labels : List Occurrence} {word : Occurrence → String}
    {o : Occurrence} (h : o ∉ labels) : o.reword labels word = o.token := if_neg fun ho => h ho.1

def Rewording.ofLabels (tokens : List Token) (labels : List Occurrence) (word : Occurrence → String)
    (hword : ∀ o ∈ labels, o.token.kind = .name → isWord (word o) = true) : Rewording where
  token := Occurrence.reword labels word
  label := ofTally tokens fun o => (o.reword labels word).value
  kind o := by
    unfold Occurrence.reword
    split <;> rfl
  position o := by
    unfold Occurrence.reword
    split <;> rfl
  word o := by
    unfold Occurrence.reword
    split
    · rename_i h
      exact .inr ⟨h.2, hword o h.1 h.2⟩
    · exact .inl rfl

section
variable {tokens : List Token} {labels : List Occurrence} {word : Occurrence → String}
  {hword : ∀ o ∈ labels, o.token.kind = .name → isWord (word o) = true} {uses : List Use}
  (hlabels : labels ⊆ (uses.filter (·.isLabel)).map (·.place))
include hlabels

/-- No token is taken twice, so one that is moved over otherwise is no label. -/
theorem allows_ofLabels (huses : uses.map (·.place) ⊆ occurrences tokens)
    (hnodup : (uses.map (·.place)).Nodup) :
    ∀ use ∈ uses, (Rewording.ofLabels tokens labels word hword).Allows tally use := by
  intro use hu
  unfold Rewording.Allows
  by_cases hl : use.isLabel = true
  · rw [if_pos hl]
    exact ofTally_tally (huses (List.mem_map_of_mem hu)) fun o => (o.reword labels word).value
  · rw [if_neg hl]
    refine Occurrence.reword_of_not_mem fun hmem => hl ?_
    obtain ⟨other, hother, hsame⟩ := List.mem_map.1 (hlabels hmem)
    obtain ⟨hother, hother'⟩ := List.mem_filter.1 hother
    rwa [← List.inj_on_of_nodup_map hnodup hother hu hsame]

theorem fixes_ofLabels {s : Parser} (hnodup : (uses.map (·.place) ++ s.remaining).Nodup) :
    (Rewording.ofLabels tokens labels word hword).Fixes s := by
  by_cases hk : s.current.token.kind = .name
  · refine Occurrence.reword_of_not_mem fun hmem => ?_
    obtain ⟨use, hu, hsame⟩ := List.mem_map.1 (hlabels hmem)
    have huses : s.here ∈ uses.map (·.place) := by
      rw [← hsame]
      exact List.mem_map_of_mem (List.mem_filter.1 hu).1
    have hcurrent : s.here ∈ s.remaining :=
      List.mem_filter.2 ⟨List.mem_cons_self, by rw [Parser.here, hk]; rfl⟩
    exact List.disjoint_of_nodup_append hnodup huses hcurrent
  · exact Rewording.fixes_of_kind _ hk

end

/-- **Labels are inert**: names that a script has as names of properties or as keys may get any other
words, keywords or variables too. The script is still accepted, and but for these labels the tree is
the same. -/
theorem parse_reword {tokens : List Token} {tree : Statements}
    (htree : parseTokens .grammar tokens = .ok tree) :
    ∃ labels : List Occurrence, labels.Sublist (occurrences tokens) ∧ TakesAsLabels tokens labels ∧
      tree.labels = labels.map (·.token.value) ∧
      ∀ word : Occurrence → String,
        (∀ o ∈ labels, o.token.kind = .name → isWord (word o) = true) →
        ∃ other, parseTokens .grammar ((occurrences tokens).map (Occurrence.reword labels word)) =
            .ok other ∧ other.unlabelled = tree.unlabelled ∧
          other.labels = labels.map fun o => (o.reword labels word).value := by
  rw [← parseLabelling_value] at htree
  cases htally : parseLabelling tally tokens with
  | error e =>
    rw [error_retagged htally] at htree
    cases htree
  | ok tallied =>
    rw [retagged_of_tallied (·.token.value) htally] at htree
    cases htree
    obtain ⟨uses, s, htaken, hs, hagain⟩ := parse_reworded htally
    obtain ⟨named, hnamed, htallied⟩ := List.sublist_map_iff.1 hs
    obtain ⟨labels, hlabels⟩ : ∃ labels, labels = named.map (·.place) := ⟨_, rfl⟩
    replace htallied : tallied.labels = labels.map tally := by
      rw [htallied, hlabels, List.map_map]
      rfl
    have hlabel : labels.Sublist ((uses.filter (·.isLabel)).map (·.place)) := by
      rw [hlabels]
      exact hnamed.map _
    have hall : (uses.map (·.place) ++ s.remaining).Sublist (occurrences tokens) := by
      rw [← htaken]
      exact List.filter_sublist
    have huses : (uses.map (·.place)).Sublist (occurrences tokens) :=
      (List.sublist_append_left ..).trans hall
    have hsub : labels.Sublist (occurrences tokens) :=
      (hlabel.trans (List.filter_sublist.map _)).trans huses
    have hnodup := (nodup_occurrences tokens).sublist hall
    have hamong : ∀ o ∈ labels, o ∈ occurrences tokens := fun o ho => hsub.subset ho
    refine ⟨labels, hsub, takesAsLabels_of_tallied htally hamong htallied, ?_, fun word hword => ?_⟩
    · rw [Statements.labels_respell, htallied, labels_retagged hamong]
    · refine ⟨_, hagain (.ofLabels tokens labels word hword) ?_ ?_, ?_, ?_⟩
      · exact allows_ofLabels hlabel.subset huses.subset hnodup.of_append_left
      · exact fixes_ofLabels hlabel.subset hnodup
      · simp only [Statements.unlabelled, Statements.respell_respell]
        rfl
      · rw [Statements.labels_respell, htallied]
        exact labels_retagged hamong fun o => (o.reword labels word).value

/-- A property is renamed to a keyword. -/
theorem parse_reword_at_keyword :
    let tokens : List Token := [⟨.name, "o", ⟨1, 1⟩⟩, ⟨.operator, ".", ⟨1, 2⟩⟩, ⟨.name, "a", ⟨1, 3⟩⟩,
      ⟨.operator, "=", ⟨1, 5⟩⟩, ⟨.name, "b", ⟨1, 7⟩⟩, ⟨.operator, ";", ⟨1, 8⟩⟩, .ending ⟨1, 9⟩]
    let reword := Occurrence.reword [⟨4, ⟨.name, "a", ⟨1, 3⟩⟩⟩] fun _ => "while"
    ∃ tree other, parseTokens .grammar tokens = .ok tree ∧ tree.labels = ["a"] ∧
      parseTokens .grammar ((occurrences tokens).map reword) = .ok other ∧
      other.unlabelled = tree.unlabelled ∧ other.labels = ["while"] := by
  intro tokens reword
  let tree : Statements := .single (.ofForm "=" (.assignment (.ofForm "." (.member (.ofName "o" ⟨1, 1⟩)
    (.ofValue (.string "a") ⟨1, 3⟩)) ⟨1, 2⟩) (.ofName "b" ⟨1, 7⟩)) ⟨1, 5⟩)
  have htree : parseTokens .grammar tokens = .ok tree := rfl
  have htext : tree.labels = ["a"] := by
    simp [tree, Statements.labels, Statements.toList, labels_ofForm, labelsOf_cons, Form.children,
      Form.label?, Node.ofName, Node.ofValue, Node.propertyName?]
    rfl
  obtain ⟨labels, hsub, -, hlabels, hreword⟩ := parse_reword htree
  obtain ⟨o, rfl, ho⟩ := List.map_eq_singleton_iff.1 (hlabels.symm.trans htext)
  have honly : ∀ o ∈ occurrences tokens, o.token.value = "a" → o = ⟨4, ⟨.name, "a", ⟨1, 3⟩⟩⟩ := by
    decide
  have hlabel := honly o (hsub.subset (List.mem_singleton_self o)) ho
  subst hlabel
  obtain ⟨other, hother, hunlabelled, hnew⟩ := hreword (fun _ => "while") fun _ _ _ => by decide
  exact ⟨tree, other, htree, htext, hother, hunlabelled, hnew⟩

end ScriptTree
