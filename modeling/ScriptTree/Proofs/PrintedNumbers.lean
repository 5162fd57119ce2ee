import Mathlib.Data.Option.NAry
import ScriptTree.Proofs.Lines
import ScriptTree.Proofs.Precedence
import ScriptTree.Proofs.Schema
import ScriptTree.Proofs.SpelledTrees

/-!
# Numbers that are printed

What is read again of a printed tree is its finite numbers in order. A number that is not finite is
printed as a word, and a property that is taken of a finite numeral is glued to it, so that the text
is not read at all. These are the only ways to lose a number (`numbers_printed_iff`).

`Shows` follows the lexer through a text, and stands in front of any other text, be it read or not.
-/

namespace ScriptTree

open Piece

/-! ## The numbers of a text -/

def Word.numbers (ws : List Word) : List (Option Number) :=
  (ws.filter (·.1 = .number)).map fun w => Number.ofText? w.2

def numbersIn (text : List Char) : Option (List (Option Number)) :=
  match readAll .standard text with
  | (pieces, none) => some (Word.numbers (Piece.words pieces))
  | (_, some _) => none

theorem Word.numbers_append (ws vs : List Word) : numbers (ws ++ vs) = numbers ws ++ numbers vs := by
  rw [numbers, List.filter_append, List.map_append]
  rfl

/-- The numbers do not depend on where the text stands. -/
theorem numbersIn_eq (before text : List Char) : numbersIn text =
    (tokensFrom .standard (.behind before) text).toOption.map fun tokens =>
      Word.numbers (tokens.map Token.word) := by
  rw [numbersIn, tokensFrom]
  generalize readAll .standard text = run
  obtain ⟨pieces, stop⟩ := run
  cases stop with
  | some cause => rfl
  | none =>
    refine congrArg some ?_
    dsimp only
    rw [List.map_append, tokens_behind, map_word_tokensBehind, Word.numbers_append]
    exact (List.append_nil _).symm

theorem numbersIn_toList (script : String) : numbersIn script.toList =
    (tokensOf .standard script).toOption.map fun tokens => Word.numbers (tokens.map Token.word) :=
  numbersIn_eq [] script.toList

def joined {α : Type} (x y : Option (List α)) : Option (List α) := Option.map₂ (· ++ ·) x y

section
variable {α : Type} (x y z : Option (List α))

@[simp] theorem joined_nothing : joined x (some []) = x := by
  cases x <;> simp [joined]

@[simp] theorem nothing_joined : joined (some []) x = x := by
  cases x <;> simp [joined]

@[simp] theorem joined_assoc : joined (joined x y) z = joined x (joined y z) :=
  Option.map₂_assoc List.append_assoc

end

theorem numbersIn_nil : numbersIn [] = some [] := by
  rw [numbersIn, readAll.eq_def]
  rfl

theorem numbersIn_of_fits {piece : Piece} {after : List Char} (h : Fits .standard piece after) :
    numbersIn (piece.text ++ after) =
      joined (some (Word.numbers (Piece.words [piece]))) (numbersIn after) := by
  obtain ⟨c, rest, htext, hr⟩ := read_of_fits h
  rw [numbersIn, numbersIn, htext, readAll_cons hr]
  generalize readAll .standard after = run
  obtain ⟨pieces, stop⟩ := run
  cases stop with
  | some cause => rfl
  | none =>
    have hwords : Piece.words (piece :: pieces) = Piece.words [piece] ++ Piece.words pieces := by
      cases piece <;> rfl
    refine congrArg some ?_
    dsimp only
    rw [hwords, Word.numbers_append]

theorem numbersIn_of_error {c : Char} {rest : List Char} {cause : Cause}
    (h : read .standard c rest = .error cause) : numbersIn (c :: rest) = none := by
  rw [numbersIn, readAll_of_error h]

theorem numbersIn_blank {c : Char} (hc : isBlank c = true) (after : List Char) :
    numbersIn (c :: after) = numbersIn after := by
  have hall : ∀ d ∈ [c], isBlank d = true := fun d hd => List.mem_singleton.1 hd ▸ hc
  have hskip : tokensFrom .standard (.behind []) ([c] ++ after) =
      tokensFrom .standard (.behind [c]) after := by
    rw [tokensFrom_blanks hall, Position.after_behind, List.nil_append]
  rw [numbersIn_eq [] (c :: after), numbersIn_eq [c] after, ← List.singleton_append, hskip]

/-! ## Texts that show numbers -/

/-- The text adds these numbers to those of any text behind it that does not start with a character of
the class; or nothing is read of it with any such text. -/
def Shows (p : Char → Bool) (text : String) (x : Option (List (Option Number))) : Prop :=
  ∀ after, Stops p after → numbersIn (text.toList ++ after) = joined x (numbersIn after)

namespace Shows

variable {p q : Char → Bool} {text more : String} {x y : Option (List (Option Number))}

theorem loosen (h : Shows p text x) (hpq : ∀ c, p c = true → q c = true) : Shows q text x :=
  fun after hstop => h after (hstop.imp hpq)

theorem of_closed (h : Shows (fun _ => false) text x) : Shows p text x :=
  h.loosen fun _ hc => (Bool.false_ne_true hc).elim

theorem append (h : Shows p text x) (h' : Shows q more y)
    (hs : ∀ after, Stops q after → Stops p (more.toList ++ after)) :
    Shows q (text ++ more) (joined x y) := by
  intro after hstop
  rw [String.toList_append, List.append_assoc, h _ (hs after hstop), h' after hstop, joined_assoc]

theorem follow (h : Shows p text x) (h' : Shows q more y) (hs : startsOutside p more = true) :
    Shows q (text ++ more) (joined x y) :=
  h.append h' fun after _ => stops_of_startsOutside hs after

theorem join (h : Shows (fun _ => false) text x) (h' : Shows q more y) :
    Shows q (text ++ more) (joined x y) :=
  h.append h' fun _ _ _ _ => rfl

theorem cast (h : Shows p text x) (hx : x = y) : Shows p text y := hx ▸ h

end Shows

/-! ### Words and signs -/

theorem shows_lexeme {p : Char → Bool} {kind : TokenKind} {value text : String}
    (h : ∀ after, Stops p after → Fits .standard (.lexeme kind value text.toList) after) :
    Shows p text (some (Word.numbers [(kind, value)])) :=
  fun after hstop => numbersIn_of_fits (h after hstop)

theorem shows_nothing : Shows (fun _ => false) "" (some []) := fun _ _ => (nothing_joined _).symm

theorem shows_name {text : String} (h : Word.Spelled (.name, text)) :
    Shows isNameChar text (some []) := shows_lexeme fun _ hstop => fits_name h hstop

theorem shows_keyword (text : String) (h : isWord text = true) :
    Shows isNameChar text (some []) := shows_name (spelled_of_isWord h)

theorem shows_operator (id : String) (h : isJoined id = true) :
    Shows continuesOperator id (some []) := shows_lexeme fun _ hstop => fits_operator h hstop

theorem shows_string (text : String) :
    Shows (fun _ => false) (StringLiteral.write text) (some []) :=
  shows_lexeme fun after _ => fits_string text after

theorem numbersIn_signs {text : List Char} (h : ∀ c ∈ text, isBlank c = true ∨ isSign c = true)
    (after : List Char) : numbersIn (text ++ after) = numbersIn after := by
  induction text with
  | nil => rfl
  | cons c text ih =>
    obtain ⟨hc, hrest⟩ := List.forall_mem_cons.1 h
    rw [← ih hrest]
    rcases hc with hblank | hsign
    · exact numbersIn_blank hblank _
    · exact (numbersIn_of_fits (fits_sign hsign (text ++ after))).trans (nothing_joined _)

theorem shows_signs {text : String} (h : (signsOf? text).isSome = true) :
    Shows (fun _ => false) text (some []) := by
  unfold signsOf? at h
  split at h
  · rename_i hall
    intro after _
    rw [nothing_joined]
    exact numbersIn_signs (fun c hc => by simpa using List.all_eq_true.1 hall c hc) after
  · cases h

namespace Shows

variable {p q : Char → Bool} {text : String} {x : Option (List (Option Number))}

theorem sign (h : Shows p text x) (more : String) (hm : (signsOf? more).isSome = true)
    (hs : startsOutside p more = true) : Shows (fun _ => false) (text ++ more) x :=
  (h.follow (shows_signs hm) hs).cast (joined_nothing x)

theorem skip (h : Shows (fun _ => false) text x) {more : String} (h' : Shows q more (some [])) :
    Shows q (text ++ more) x :=
  (h.join h').cast (joined_nothing x)

theorem lead {front : String} (h : Shows (fun _ => false) front (some [])) (h' : Shows p text x) :
    Shows p (front ++ text) x :=
  (h.join h').cast (nothing_joined x)

theorem behind (h : Shows p text x) (front : String) (hf : (signsOf? front).isSome = true) :
    Shows p (front ++ text) x :=
  (shows_signs hf).lead h

end Shows

/-! ### Numerals -/

theorem shows_numeral (rank : Fin magnitudeCount) :
    Shows continuesNumeral (Number.text (.finite false rank)) (some [some (.finite false rank)]) := by
  obtain ⟨hnumeral, hn⟩ := Number.text_finite rank
  have hshows : Shows continuesNumeral (Number.text (.finite false rank))
      (some (Word.numbers [(.number, Number.text (.finite false rank))])) := by
    refine shows_lexeme fun after hstop => ?_
    have hfits : Fits .standard (word .number (Number.text (.finite false rank)).toList) after :=
      .number hnumeral hstop
    rwa [word, String.ofList_toList] at hfits
  refine hshows.cast ?_
  rw [← hn]
  rfl

/-- A point that no digit follows is no part of the numeral in front of it. -/
theorem splitNumeral_of_point {whole fraction rest : List Char} {c : Char} (hw : IsDigits whole)
    (hf : IsFraction fraction) (hc : c.isDigit = false) :
    splitNumeral (whole ++ fraction ++ '.' :: c :: rest) =
      (whole ++ fraction, '.' :: c :: rest) := by
  have hpoint : Stops Char.isDigit ('.' :: c :: rest) := by
    rintro _ ⟨⟩
    decide
  have hfirst : Stops Char.isDigit (fraction ++ '.' :: c :: rest) := by
    rcases hf with rfl | ⟨digits, -, rfl⟩
    · exact hpoint
    · rintro _ ⟨⟩
      decide
  have hfraction : splitFraction (fraction ++ '.' :: c :: rest) = (fraction, '.' :: c :: rest) := by
    by_cases hne : fraction = []
    · subst hne
      simp [splitFraction, hc]
    · exact splitFraction_append_of_stops hf hpoint fun h => absurd h hne
  rw [splitNumeral, List.append_assoc, takeWhile_append_of_stops hw.2 hfirst,
    dropWhile_append_of_stops hw.2 hfirst, hfraction]
  simp [splitExponent]

/-- A name with a point in front of it cannot be glued to a numeral. -/
theorem numbersIn_glued (rank : Fin magnitudeCount) {c : Char} (hc : isNameStart c = true)
    (rest : List Char) :
    numbersIn ((Number.text (.finite false rank)).toList ++ '.' :: c :: rest) = none := by
  have htext : (Number.text (.finite false rank)).toList = (Number.shortest rank).plain := by
    rw [Number.text, String.toList_append, String.toList_ofList]
    rfl
  obtain ⟨whole, fraction, hplain, hw, hf, -⟩ := (Number.shortest rank).plain_eq
  have hdigit : c.isDigit = false := by
    by_contra hd
    rw [not_isNameStart_of_isDigit (by simpa using hd)] at hc
    cases hc
  have hread : readNumeral (whole ++ fraction ++ '.' :: c :: rest) =
      .error (.badNumber (String.ofList (whole ++ fraction ++
        ('.' :: c :: rest).takeWhile continuesNumeral))) := by
    rw [readNumeral, splitNumeral_of_point hw hf hdigit]
    rfl
  obtain ⟨first, whole, rfl⟩ := List.exists_cons_of_ne_nil hw.1
  rw [htext, hplain]
  exact numbersIn_of_error ((read_of_isDigit (hw.2 first (.head _)) _).trans hread)

/-! ## What a tree shows -/

def Node.numeral? (node : Node) : Option Number := node.number?.filter Number.isFinite

def Node.isGlued (node : Node) : Bool := (node.object?.bind numeral?).isSome

/-- What a node shows by itself: its numeral, and nothing is read if a name is glued to one. -/
def Node.shown (node : Node) : Option (List (Option Number)) :=
  if node.isGlued then none else some (node.numeral?.toList.map some)

def Node.visited (node : Node) : List Node := (node.walk 0).map Prod.snd

def shownBy (nodes : List Node) : Option (List (Option Number)) :=
  (nodes.flatMap Node.visited).foldr (fun node => joined node.shown) (some [])

theorem Node.map_walk (node : Node) (depth depth' : Nat) :
    (node.walk depth).map Prod.snd = (node.walk depth').map Prod.snd := by
  rw [walk_eq, walk_eq, List.map_cons, List.map_cons, List.map_flatMap, List.map_flatMap]
  refine congrArg (node :: ·) (List.flatMap_congr fun child hm => ?_)
  exact child.map_walk _ _
termination_by node
decreasing_by exact Node.sizeOf_lt_of_mem hm

theorem Node.visited_eq (node : Node) : node.visited = node :: node.children.flatMap visited := by
  rw [visited, walk_eq, List.map_cons, List.map_flatMap]
  exact congrArg (node :: ·) (List.flatMap_congr fun child _ => child.map_walk 1 0)

theorem foldr_joined (nodes : List Node) (x : Option (List (Option Number))) :
    nodes.foldr (fun node => joined node.shown) x =
      joined (nodes.foldr (fun node => joined node.shown) (some [])) x := by
  induction nodes with
  | nil => exact (nothing_joined x).symm
  | cons node rest ih => rw [List.foldr_cons, List.foldr_cons, ih, joined_assoc]

theorem shownBy_append (nodes rest : List Node) :
    shownBy (nodes ++ rest) = joined (shownBy nodes) (shownBy rest) := by
  rw [shownBy, List.flatMap_append, List.foldr_append, foldr_joined]
  rfl

theorem shownBy_cons (node : Node) (rest : List Node) :
    shownBy (node :: rest) = joined (shownBy [node]) (shownBy rest) := shownBy_append [node] rest

theorem shownBy_node (node : Node) : shownBy [node] = joined node.shown (shownBy node.children) := by
  rw [shownBy, List.flatMap_singleton, Node.visited_eq, List.foldr_cons]
  rfl

def Place.glue (node : Node) : Place → Char → Bool
  | .operand => if node.numeral?.isSome then continuesNumeral else isNameChar
  | .statement _ => fun _ => false

def Node.Shown (node : Node) : Prop :=
  ∀ place : Place, Shows (place.glue node) (node.write place) (shownBy [node])

theorem Place.continuesNumeral_of_glue {node : Node} {c : Char}
    (h : Place.operand.glue node c = true) : continuesNumeral c = true := by
  unfold glue at h
  dsimp only at h
  split at h
  · exact h
  · rw [continuesNumeral, h, Bool.true_or]

theorem Place.glue_of_isNameChar {node : Node} {c : Char} (h : isNameChar c = true) :
    Place.operand.glue node c = true := by
  unfold glue
  dsimp only
  split
  · rw [continuesNumeral, h, Bool.true_or]
  · exact h

theorem Node.Shown.operand {node : Node} (h : node.Shown) :
    Shows continuesNumeral (node.write .operand) (shownBy [node]) :=
  (h .operand).loosen fun _ => Place.continuesNumeral_of_glue

theorem Node.Shown.statement {node : Node} (h : node.Shown) (depth : Nat) :
    Shows (fun _ => false) (node.write (.statement depth)) (shownBy [node]) := h (.statement depth)

/-! ### Lists of nodes -/

theorem shows_items : ∀ nodes : List Node, (∀ node ∈ nodes, node.Shown) →
    Shows continuesNumeral (writeItems nodes) (shownBy nodes)
  | [], _ => shows_nothing.of_closed
  | [node], h => (h node (.head _)).operand
  | node :: other :: rest, h => by
    obtain ⟨hnode, hrest⟩ := List.forall_mem_cons.1 h
    rw [writeItems_more, shownBy_cons]
    exact (hnode.operand.sign ", " rfl rfl).join (shows_items (other :: rest) hrest)

theorem shows_entries : ∀ nodes : List Node, (∀ node ∈ nodes, node.Shown) →
    Shows continuesNumeral (writeEntries nodes) (shownBy nodes)
  | [], _ => shows_nothing.of_closed
  | [node], h => by
    exact ((shows_string (node.key.getD "")).sign ": " rfl rfl).lead (h node (.head _)).operand
  | node :: other :: rest, h => by
    obtain ⟨hnode, hrest⟩ := List.forall_mem_cons.1 h
    have hentry := ((shows_string (node.key.getD "")).sign ": " rfl rfl).lead hnode.operand
    rw [writeEntries_more, shownBy_cons]
    exact (hentry.sign ", " rfl rfl).join (shows_entries (other :: rest) hrest)

theorem shows_indentation (depth : Nat) : Shows (fun _ => false) (indentation depth) (some []) := by
  intro after _
  rw [indentation, String.toList_ofList, nothing_joined]
  refine numbersIn_signs (fun c hc => ?_) after
  rw [List.eq_of_mem_replicate hc]
  exact .inl rfl

theorem shows_lines (depth : Nat) : ∀ nodes : List Node, (∀ node ∈ nodes, node.Shown) →
    Shows (fun _ => false) (writeLines depth nodes) (shownBy nodes)
  | [], _ => shows_nothing
  | node :: rest, h => by
    obtain ⟨hnode, hrest⟩ := List.forall_mem_cons.1 h
    have hline := (shows_indentation depth).lead (hnode.statement depth)
    rw [writeLines, shownBy_cons]
    exact (hline.sign "\n" rfl rfl).join (shows_lines depth rest hrest)

theorem shows_braced (depth : Nat) {lines : String} {x : Option (List (Option Number))}
    (h : Shows (fun _ => false) lines x) : Shows (fun _ => false) (braced depth lines) x := by
  have hlines := (h.behind "\x7b\n" rfl).skip (shows_indentation depth)
  exact hlines.sign "\x7d" rfl rfl

theorem shows_body (depth : Nat) {body : Statements} (h : ∀ node ∈ body.toList, node.Shown) :
    Shows (fun _ => false) (body.write depth) (shownBy body.toList) := by
  have hlines := shows_braced depth (shows_lines (depth + 1) _ h)
  cases body with
  | empty =>
    rw [Statements.write]
    exact shows_signs rfl
  | single node =>
    rw [Statements.toList, writeLines, writeLines, String.append_empty] at hlines
    exact hlines
  | sequence nodes => exact hlines

theorem shows_else : Shows (fun _ => false) " else " (some []) :=
  (((shows_keyword "else" rfl).behind " " rfl).sign " " rfl rfl)

theorem shows_alternative (depth : Nat) {body : Statements} (h : ∀ node ∈ body.toList, node.Shown) :
    Shows (fun _ => false) (body.writeElse depth) (shownBy body.toList) := by
  have hblock := shows_else.lead (shows_body depth h)
  cases body with
  | empty => exact shows_nothing
  | single node =>
    by_cases hc : node.isConditional = true
    · rw [Statements.writeElse, if_pos hc]
      exact shows_else.lead ((h node (.head _)).statement depth)
    · rw [Statements.writeElse, if_neg hc]
      exact hblock
  | sequence nodes => exact hblock

/-! ### Operands -/

theorem shownBy_of_shown {node : Node} (h : node.shown = some []) :
    shownBy [node] = shownBy node.children := by
  rw [shownBy_node, h, nothing_joined]

theorem shown_of_close {node : Node} {text : String} (hown : node.shown = some [])
    (hw : ∀ place : Place, node.write place = place.close text)
    (h : Shows isNameChar text (shownBy node.children)) : node.Shown := by
  intro place
  rw [hw place, shownBy_of_shown hown]
  cases place with
  | operand => exact h.loosen fun _ => Place.glue_of_isNameChar
  | statement depth => exact h.sign ";" rfl rfl

theorem shown_of_statement {node : Node} (hown : node.shown = some [])
    (h : ∀ place, Shows (fun _ => false) (node.write place) (shownBy node.children)) :
    node.Shown := fun place => shownBy_of_shown hown ▸ (h place).of_closed

section
variable {id : String} {key : Option String} {position : Position}

theorem shown_name {text : String} (h : Word.Spelled (.name, text)) :
    (Node.mk id key position (.name text)).Shown :=
  shown_of_close rfl (fun _ => rfl) (shows_name h)

theorem shown_self : (Node.mk id key position .self).Shown :=
  shown_of_close rfl (fun _ => rfl) (shows_keyword _ rfl)

theorem shown_number {n : Number} (hn : n.isUnsigned = true) :
    (Node.mk literalId key position (.literal (.number n))).Shown := by
  cases n with
  | nan => exact shown_of_close rfl (fun _ => rfl) (shows_keyword _ rfl)
  | infinity negative =>
    cases negative with
    | true => cases hn
    | false => exact shown_of_close rfl (fun _ => rfl) (shows_keyword _ rfl)
  | finite negative rank =>
    cases negative with
    | true => cases hn
    | false =>
      have hshown : shownBy [.mk literalId key position (.literal (.number (.finite false rank)))] =
          some [some (.finite false rank)] := by
        rw [shownBy_node]
        exact joined_nothing _
      intro place
      rw [hshown]
      cases place with
      | operand => exact shows_numeral rank
      | statement depth => exact (shows_numeral rank).sign ";" rfl rfl

theorem shown_constant {value : Value} (hid : id ≠ literalId) (hs : Word.Spelled (.name, id)) :
    (Node.mk id key position (.literal value)).Shown := by
  have hnumber : (Node.mk id key position (.literal value)).number? = none := by
    cases value <;> first | rfl | exact if_neg hid
  have hown : (Node.mk id key position (.literal value)).shown = some [] := by
    rw [Node.shown, Node.numeral?, hnumber]
    rfl
  refine shown_of_close hown (fun place => ?_) (shows_name hs)
  exact congrArg (place.close ·) (if_neg hid)

theorem spelled_of_constant {value : Value}
    (h : (SymbolTable.grammar.lookup? id).bind (·.constant?) = some value) :
    Word.Spelled (.name, id) := by
  have hall : ∀ symbol ∈ SymbolTable.grammar.symbols, symbol.constant?.isSome = true →
      isWord symbol.id = true := by decide +kernel
  obtain ⟨symbol, hl, hv⟩ := Option.bind_eq_some_iff.1 h
  obtain ⟨hm, rfl⟩ := SymbolTable.mem_of_lookup? hl
  exact spelled_of_isWord (hall symbol hm (by rw [hv]; rfl))

theorem shown_literal {value : Value} (hfits : (Form.literal value).Fits id)
    (hs : (Node.mk id key position (.literal value)).Spelled) :
    (Node.mk id key position (.literal value)).Shown := by
  by_cases hid : id = literalId
  · subst hid
    cases value with
    | number n => exact shown_number (hs.number n rfl)
    | string text => exact shown_of_close rfl (fun _ => rfl) (shows_string text).of_closed
    | bool b =>
      cases b with
      | true => exact shown_of_close rfl (fun _ => rfl) (shows_keyword _ rfl)
      | false => exact shown_of_close rfl (fun _ => rfl) (shows_keyword _ rfl)
    | null => exact shown_of_close rfl (fun _ => rfl) (shows_keyword _ rfl)
  · exact shown_constant hid (spelled_of_constant (hfits.resolve_left hid))

theorem shown_unary {a : Node} (hid : id ∈ ["-", "!", "typeof"]) (h : a.Shown) :
    (Node.mk id key position (.unary a)).Shown := by
  have hword : Shows (fun _ => false) ("(" ++ id ++ " ") (some []) := by
    simp only [List.mem_cons, List.not_mem_nil, or_false] at hid
    rcases hid with rfl | rfl | rfl
    · exact ((shows_operator _ rfl).behind "(" rfl).sign " " rfl rfl
    · exact ((shows_operator _ rfl).behind "(" rfl).sign " " rfl rfl
    · exact ((shows_keyword _ rfl).behind "(" rfl).sign " " rfl rfl
  refine shown_of_close rfl (fun _ => rfl) (Shows.of_closed ?_)
  exact (hword.lead h.operand).sign ")" rfl rfl

theorem shown_array {nodes : List Node} (h : ∀ node ∈ nodes, node.Shown) :
    (Node.mk id key position (.array nodes)).Shown := by
  refine shown_of_close rfl (fun _ => rfl) (Shows.of_closed ?_)
  exact ((shows_items nodes h).behind "[" rfl).sign "]" rfl rfl

theorem shown_object {nodes : List Node} (h : ∀ node ∈ nodes, node.Shown) :
    (Node.mk id key position (.object nodes)).Shown := by
  refine shown_of_close rfl (fun _ => rfl) (Shows.of_closed ?_)
  exact ((shows_entries nodes h).behind "\x7b" rfl).sign "\x7d" rfl rfl

theorem shows_between {a b : Node} (hid : isJoined id = true) (ha : a.Shown) (hb : b.Shown) :
    Shows (fun _ => false) ("(" ++ a.write .operand ++ " " ++ id ++ " " ++ b.write .operand ++ ")")
      (shownBy [a, b]) := by
  have hleft := ((ha.operand.behind "(" rfl).sign " " rfl rfl).skip (shows_operator id hid)
  have hpair := (hleft.sign " " rfl rfl).join hb.operand
  exact (hpair.sign ")" rfl rfl).cast (shownBy_cons a [b]).symm

theorem shown_declaration {a b : Node} (ha : a.Shown) (hb : b.Shown) :
    (Node.mk "=" key position (.declaration a b)).Shown := by
  refine shown_of_statement rfl fun place => ?_
  cases place with
  | operand => exact shows_between rfl ha hb
  | statement depth =>
    have hvar := (shows_keyword "var" rfl).sign " " rfl rfl
    have hequals := ((shows_operator "=" rfl).behind " " rfl).sign " " rfl rfl
    have hname := ((hvar.lead ha.operand).follow hequals rfl).cast (joined_nothing _)
    exact ((hname.join hb.operand).sign ";" rfl rfl).cast (shownBy_cons a [b]).symm

theorem shown_index {a b : Node} (ha : a.Shown) (hb : b.Shown) :
    (Node.mk id key position (.index a b)).Shown := by
  refine shown_of_close rfl (fun _ => rfl) (Shows.of_closed ?_)
  have hobject := (ha.operand.behind "(" rfl).sign "[" rfl rfl
  exact ((hobject.join hb.operand).sign "])" rfl rfl).cast (shownBy_cons a [b]).symm

theorem shown_call {a : Node} {nodes : List Node} (ha : a.Shown) (h : ∀ node ∈ nodes, node.Shown) :
    (Node.mk id key position (.call a nodes)).Shown := by
  refine shown_of_close rfl (fun _ => rfl) (Shows.of_closed ?_)
  have hcallee := (ha.operand.behind "(" rfl).sign "(" rfl rfl
  exact ((hcallee.join (shows_items nodes h)).sign "))" rfl rfl).cast (shownBy_cons a nodes).symm

theorem shown_ternary {a b c : Node} (ha : a.Shown) (hb : b.Shown) (hc : c.Shown) :
    (Node.mk id key position (.ternary a b c)).Shown := by
  refine shown_of_close rfl (fun _ => rfl) (Shows.of_closed ?_)
  have hcondition := (ha.operand.behind "(" rfl).sign " ? " rfl rfl
  have hconsequent := (hcondition.join hb.operand).sign " : " rfl rfl
  refine ((hconsequent.join hc.operand).sign ")" rfl rfl).cast ?_
  rw [joined_assoc, ← shownBy_cons, ← shownBy_cons]
  rfl

theorem write_of_numeral {a : Node} {n : Number} (ha : a.Spelled) (hn : a.numeral? = some n) :
    ∃ rank, a.write .operand = Number.text (.finite false rank) := by
  obtain ⟨hnumber, hfinite⟩ := Option.filter_eq_some_iff.1 hn
  have hsign := ha.number n hnumber
  obtain ⟨id, key, position, form⟩ := a
  obtain ⟨rfl, rfl⟩ := Node.number?_eq_some.1 hnumber
  cases n with
  | nan => cases hfinite
  | infinity negative => cases hfinite
  | finite negative rank =>
    cases negative with
    | true => cases hsign
    | false => exact ⟨rank, rfl⟩

theorem shown_member_eq (a b : Node) : (Node.mk id key position (.member a b)).shown =
    if a.numeral?.isSome then none else some [] := rfl

theorem shown_member {a : Node} {text : String} {other : Position} (ha : a.Shown)
    (hs : Word.Spelled (.name, text)) (hn : a.numeral? = none) :
    (Node.mk id key position (.member a (.ofValue (.string text) other))).Shown := by
  have hobject : Shows isNameChar (a.write .operand) (shownBy [a]) := by
    refine (ha .operand).loosen fun c hc => ?_
    rwa [Place.glue, hn] at hc
  refine shown_of_close (by rw [shown_member_eq, hn]; rfl) (fun _ => rfl) (Shows.of_closed ?_)
  have hpoint := ((hobject.behind "(" rfl).sign "." rfl rfl).skip (shows_name hs)
  have hproperty : shownBy [.ofValue (.string text) other] = some [] := shownBy_of_shown rfl
  have hshown : shownBy [a, .ofValue (.string text) other] = shownBy [a] := by
    rw [shownBy_cons, hproperty, joined_nothing]
  exact (hpoint.sign ")" rfl rfl).cast hshown.symm

/-- A property that is taken of a numeral is glued to it, and nothing is read. -/
theorem shown_glued {a : Node} {text : String} {other : Position} {n : Number} (ha : a.Spelled)
    (hs : Word.Spelled (.name, text)) (hn : a.numeral? = some n) :
    (Node.mk id key position (.member a (.ofValue (.string text) other))).Shown := by
  obtain ⟨c, rest, htext, hc, -⟩ := hs
  obtain ⟨rank, hwrite⟩ := write_of_numeral ha hn
  have hnone : shownBy [.mk id key position (.member a (.ofValue (.string text) other))] = none := by
    rw [shownBy_node, shown_member_eq, hn]
    rfl
  have hglued : Shows (fun _ => false) (a.write .operand ++ "." ++ text) none := by
    intro after _
    rw [hwrite, String.toList_append, String.toList_append, htext, List.append_assoc,
      List.append_assoc]
    exact numbersIn_glued rank hc (rest ++ after)
  have hclosed : Shows (fun _ => false) ("(" ++ a.write .operand ++ "." ++ text ++ ")") none := by
    have hgroup := (hglued.behind "(" rfl).sign ")" rfl rfl
    rwa [← String.append_assoc, ← String.append_assoc] at hgroup
  intro place
  rw [hnone]
  cases place with
  | operand => exact hclosed.of_closed
  | statement depth => exact hclosed.sign ";" rfl rfl

theorem shown_block {body : Statements} (h : ∀ node ∈ body.toList, node.Shown) :
    (Node.mk id key position (.block body)).Shown :=
  shown_of_statement rfl fun place => shows_body place.depth h

theorem shown_whileLoop {a : Node} {body : Statements} (ha : a.Shown)
    (h : ∀ node ∈ body.toList, node.Shown) :
    (Node.mk id key position (.whileLoop a body)).Shown := by
  refine shown_of_statement rfl fun place => ?_
  have hwhile := (shows_keyword "while" rfl).sign " (" rfl rfl
  have hcondition := (hwhile.lead ha.operand).sign ") " rfl rfl
  exact (hcondition.join (shows_body place.depth h)).cast (shownBy_cons a body.toList).symm

theorem shown_ifElse {a : Node} {consequent alternative : Statements} (ha : a.Shown)
    (hs : ∀ node ∈ consequent.toList, node.Shown) (ht : ∀ node ∈ alternative.toList, node.Shown) :
    (Node.mk id key position (.ifElse a consequent alternative)).Shown := by
  refine shown_of_statement rfl fun place => ?_
  have hif := (shows_keyword "if" rfl).sign " (" rfl rfl
  have hcondition := (hif.lead ha.operand).sign ") " rfl rfl
  have hblock := hcondition.join (shows_body place.depth hs)
  refine (hblock.join (shows_alternative place.depth ht)).cast ?_
  rw [joined_assoc, ← shownBy_append, ← shownBy_cons]
  rfl

theorem shown_breakOut : (Node.mk id key position .breakOut).Shown :=
  shown_of_statement rfl fun _ =>
    (shows_keyword "break" rfl).sign ";" rfl rfl

theorem shown_return {value : Option Node} (h : ∀ a ∈ value, a.Shown) :
    (Node.mk id key position (.returnWith value)).Shown := by
  have hreturn := shows_keyword "return" rfl
  refine shown_of_statement rfl fun place => ?_
  cases value with
  | none => exact hreturn.sign ";" rfl rfl
  | some a =>
    exact ((hreturn.sign " " rfl rfl).lead (h a rfl).operand).sign ";" rfl rfl

theorem shown_function {name : Option String} {nodes : List Node} {body : Statements}
    (hname : ∀ text ∈ name, Word.Spelled (.name, text)) (hn : ∀ node ∈ nodes, node.Shown)
    (h : ∀ node ∈ body.toList, node.Shown) :
    (Node.mk id key position (.function name nodes body)).Shown := by
  have hword : Shows isNameChar (name.getD "") (some []) := by
    cases name with
    | none => exact shows_nothing.of_closed
    | some text => exact shows_name (hname text rfl)
  have hfunction := ((shows_keyword "function" rfl).behind "(" rfl).sign
    " " rfl rfl
  have hlist := ((hfunction.skip hword).sign "(" rfl rfl).lead (shows_items nodes hn)
  have hparameters := hlist.sign ") " rfl rfl
  refine shown_of_close rfl (fun _ => rfl) (Shows.of_closed ?_)
  refine ((hparameters.join (shows_body 0 h)).sign ")" rfl rfl).cast ?_
  exact (shownBy_append nodes body.toList).symm

end

/-! ## Whole trees -/

theorem isJoined_of_isBinary {id : String} (h : SymbolTable.grammar.isBinary id = true) :
    isJoined id = true := by
  have hall : ∀ symbol ∈ SymbolTable.grammar.symbols, (symbol.infixRule?.any fun rule =>
      rule = .binary ∨ rule = .binaryRight) = true → isJoined symbol.id = true := by decide +kernel
  obtain ⟨rule, hr, hrule⟩ := (Option.any_eq_true _ _).1 h
  obtain ⟨symbol, hl, hs⟩ := Option.bind_eq_some_iff.1 hr
  obtain ⟨hm, rfl⟩ := SymbolTable.mem_of_lookup? hl
  exact hall symbol hm (by rw [hs]; exact hrule)

/-- **A tree shows its numbers**, whatever place it is printed in. -/
theorem Node.shows {node : Node} (h : node.Everywhere fun a => a.Spelled ∧ a.form.Fits a.id) :
    node.Shown := by
  obtain ⟨⟨hs, hfits⟩, hc⟩ := everywhere_iff.1 h
  have ih : ∀ child ∈ node.children, child.Shown := fun child hm => child.shows (hc child hm)
  obtain ⟨id, key, position, form⟩ := node
  cases form with
  | literal value => exact shown_literal hfits hs
  | name text => exact shown_name (hs.name text rfl)
  | self => exact shown_self
  | unary a => exact shown_unary hfits (ih a (.head _))
  | array nodes => exact shown_array ih
  | object nodes => exact shown_object ih
  | binary a b =>
    have hpair := shows_between (isJoined_of_isBinary hfits) (ih a (.head _)) (ih b (.tail _ (.head _)))
    exact shown_of_close rfl (fun _ => rfl) hpair.of_closed
  | assignment a b =>
    have hall : ∀ id ∈ ["=", "+=", "-="], isJoined id = true := by decide
    have hpair := shows_between (hall id hfits.1) (ih a (.head _)) (ih b (.tail _ (.head _)))
    exact shown_of_close rfl (fun _ => rfl) hpair.of_closed
  | declaration a b =>
    obtain rfl : id = "=" := hfits.1
    exact shown_declaration (ih a (.head _)) (ih b (.tail _ (.head _)))
  | member a b =>
    obtain ⟨-, text, other, rfl⟩ := hfits
    have hword := hs.name text rfl
    cases hn : a.numeral? with
    | none => exact shown_member (ih a (.head _)) hword hn
    | some n =>
      have ha := (everywhere_iff.1 (hc a (.head _))).1.1
      exact shown_glued ha hword hn
  | index a b => exact shown_index (ih a (.head _)) (ih b (.tail _ (.head _)))
  | call a nodes =>
    obtain ⟨ha, hnodes⟩ := List.forall_mem_cons.1 ih
    exact shown_call ha hnodes
  | ternary a b c =>
    exact shown_ternary (ih a (.head _)) (ih b (.tail _ (.head _)))
      (ih c (.tail _ (.tail _ (.head _))))
  | block body => exact shown_block ih
  | whileLoop a body =>
    obtain ⟨ha, hbody⟩ := List.forall_mem_cons.1 ih
    exact shown_whileLoop ha hbody
  | ifElse a consequent alternative =>
    obtain ⟨ha, hbodies⟩ := List.forall_mem_cons.1 ih
    obtain ⟨hconsequent, halternative⟩ := List.forall_mem_append.1 hbodies
    exact shown_ifElse ha hconsequent halternative
  | breakOut => exact shown_breakOut
  | returnWith value => exact shown_return fun a ha => ih a (Option.mem_toList.2 ha)
  | function name nodes body =>
    obtain ⟨hnodes, hbody⟩ := List.forall_mem_append.1 ih
    exact shown_function hs.name hnodes hbody
termination_by node
decreasing_by exact Node.sizeOf_lt_of_mem hm

theorem numbersIn_script {source : String} {tree : Statements} (h : parseScript source = .ok tree) :
    numbersIn tree.script.toList = shownBy tree.toList := by
  have hspelled := spelled_of_parseScript h
  obtain ⟨tokens, -, htree⟩ := parseScript_eq_ok.1 h
  have hbody := (regular_of_script htree).1
  have hshown : ∀ node ∈ tree.toList, node.Shown := fun node hm => Node.shows fun depth below hb =>
    ⟨hspelled node hm depth below hb, ((hbody.statement node hm).good depth below hb).1.fits⟩
  have hlines := shows_lines 0 tree.toList hshown [] nofun
  rwa [List.append_nil, numbersIn_nil, joined_nothing] at hlines

/-! ## Lost numbers -/

theorem foldr_shown (nodes : List Node) :
    nodes.foldr (fun node => joined node.shown) (some []) =
      if nodes.any Node.isGlued then none else some ((nodes.filterMap Node.numeral?).map some) := by
  induction nodes with
  | nil => rfl
  | cons node rest ih =>
    rw [List.foldr_cons, ih, Node.shown, List.any_cons, List.filterMap_cons]
    cases node.isGlued with
    | true => rfl
    | false => cases rest.any Node.isGlued <;> cases node.numeral? <;> rfl

theorem shownBy_toList (tree : Statements) : shownBy tree.toList =
    if tree.walk.any (·.2.isGlued) then none
    else some (((tree.walk.filterMap (·.2.number?)).filter Number.isFinite).map some) := by
  have hvisited : tree.toList.flatMap Node.visited = tree.walk.map Prod.snd :=
    List.map_flatMap.symm
  rw [shownBy, hvisited, foldr_shown, List.any_map, List.filterMap_map, List.filter_filterMap]
  rfl

theorem Node.object_mem_children {node object : Node} (h : node.object? = some object) :
    object ∈ node.children := by
  obtain ⟨id, key, position, form⟩ := node
  cases form with
  | member =>
    cases h
    exact .head _
  | _ => cases h

theorem Node.isGlued_of_writable {node : Node} (h : node.Writable) : node.isGlued = false := by
  unfold isGlued
  cases ho : node.object? with
  | none => rfl
  | some object =>
    rw [Option.bind_some, numeral?, h.member object ho]
    rfl

theorem Node.writable_everywhere (node : Node)
    (h : node.Everywhere fun a => (∀ n ∈ a.number?, n.isFinite = true) ∧ a.isGlued = false) :
    node.Everywhere Node.Writable := by
  obtain ⟨⟨hfinite, hglued⟩, hc⟩ := everywhere_iff.1 h
  refine everywhere_iff.2 ⟨⟨hfinite, fun object ho => ?_⟩, fun child hm => ?_⟩
  · have hobject := (everywhere_iff.1 (hc object (object_mem_children ho))).1.1
    cases hn : object.number? with
    | none => rfl
    | some n =>
      rw [isGlued, ho, Option.bind_some, numeral?, hn,
        Option.filter_some_pos (hobject n hn)] at hglued
      cases hglued
  · exact child.writable_everywhere (hc child hm)
termination_by node
decreasing_by exact Node.sizeOf_lt_of_mem hm

/-- A tree can be written if its numbers are finite and no name is glued to a numeral. -/
theorem Statements.writable_iff (tree : Statements) :
    (∀ visit ∈ tree.walk, visit.2.Writable) ↔ tree.walk.any (·.2.isGlued) = false ∧
      ∀ n ∈ tree.walk.filterMap (·.2.number?), n.isFinite = true := by
  simp only [List.any_eq_false, List.mem_filterMap, Bool.not_eq_true]
  constructor
  · intro h
    refine ⟨fun visit hv => Node.isGlued_of_writable (h visit hv), ?_⟩
    rintro n ⟨visit, hv, hn⟩
    exact (h visit hv).finite n hn
  · rintro ⟨hglued, hfinite⟩
    have heverywhere := (forall_walk (P := fun a => (∀ n ∈ a.number?, n.isFinite = true) ∧
      a.isGlued = false)).1 fun visit hv =>
        ⟨fun n hn => hfinite n ⟨visit, hv, hn⟩, hglued visit hv⟩
    exact (forall_walk (P := Node.Writable)).2 fun node hm =>
      node.writable_everywhere (heverywhere node hm)

/-- The tokens of a printed tree, if there are any, are those of its finite numbers in order. -/
theorem numbers_of_script {source : String} {tree : Statements}
    (h : parseScript source = .ok tree) :
    ((tokensOf .standard tree.script).toOption.map fun tokens =>
        Word.numbers (tokens.map Token.word)) =
      if tree.walk.any (·.2.isGlued) then none
      else some (((tree.walk.filterMap (·.2.number?)).filter Number.isFinite).map some) := by
  rw [← numbersIn_toList, numbersIn_script h, shownBy_toList]

/-- **Numbers are kept exactly by trees that can be written**, those with no infinite number and no
property of a numeral. Whenever a printed tree is read at all, only its infinite numbers are lost: the
finite ones are still there in order, and no other number is. -/
theorem numbers_printed_iff {source : String} {tree : Statements}
    (h : parseScript source = .ok tree) :
    ((∃ tokens, tokensOf .standard tree.script = .ok tokens ∧
        Word.numbers (tokens.map Token.word) = (tree.walk.filterMap (·.2.number?)).map some) ↔
      ∀ visit ∈ tree.walk, visit.2.Writable) ∧
    ∀ tokens, tokensOf .standard tree.script = .ok tokens →
      Word.numbers (tokens.map Token.word) =
        ((tree.walk.filterMap (·.2.number?)).filter Number.isFinite).map some := by
  have hread := numbers_of_script h
  rw [tree.writable_iff]
  cases htokens : tokensOf .standard tree.script with
  | error e =>
    rw [htokens] at hread
    refine ⟨iff_of_false ?_ ?_, fun _ hok => by cases hok⟩
    · rintro ⟨_, hok, -⟩
      cases hok
    · rintro ⟨hglued, -⟩
      rw [hglued] at hread
      cases hread
  | ok tokens =>
    rw [htokens] at hread
    cases hglued : tree.walk.any (·.2.isGlued) with
    | true =>
      rw [hglued] at hread
      cases hread
    | false =>
      rw [hglued] at hread
      have hnumbers : Word.numbers (tokens.map Token.word) = _ := Option.some.inj hread
      refine ⟨⟨?_, fun hw => ⟨tokens, rfl, ?_⟩⟩, ?_⟩
      · rintro ⟨_, ⟨⟩, hkept⟩
        have hall := List.map_injective_iff.2 (fun _ _ => Option.some.inj) (hnumbers.symm.trans hkept)
        exact ⟨rfl, List.filter_eq_self.1 hall⟩
      · rw [hnumbers, List.filter_eq_self.2 hw.2]
      · rintro _ ⟨⟩
        exact hnumbers

theorem numbers_printed_iff_at_infinity :
    ∃ tree, parseScript "x = 1e500;" = .ok tree ∧ tree.script = "(x = inf);\n" ∧
      ¬ ∃ tokens, tokensOf .standard tree.script = .ok tokens ∧
        Word.numbers (tokens.map Token.word) = (tree.walk.filterMap (·.2.number?)).map some := by
  have htokens : tokensOf .standard "x = 1e500;" = .ok [⟨.name, "x", ⟨1, 1⟩⟩,
      ⟨.operator, "=", ⟨1, 3⟩⟩, ⟨.number, "1e500", ⟨1, 5⟩⟩, ⟨.operator, ";", ⟨1, 10⟩⟩,
      .ending ⟨1, 11⟩] := eq_ok_of_toOption (by decide +kernel)
  have h : parseScript "x = 1e500;" = .ok (.single (.ofForm "=" (.assignment (.ofName "x" ⟨1, 1⟩)
      (.ofValue (.number (.infinity false)) ⟨1, 5⟩)) ⟨1, 3⟩)) := by
    rw [parseScript, htokens]
    rfl
  refine ⟨_, h, rfl, fun hkept => ?_⟩
  have hinfinite := (numbers_printed_iff h).1.1 hkept
    (1, .ofValue (.number (.infinity false)) ⟨1, 5⟩) ?_
  · cases hinfinite.finite _ rfl
  · refine List.mem_flatMap.2 ⟨_, .head _, ?_⟩
    rw [Node.walk_eq]
    refine .tail _ (List.mem_flatMap.2 ⟨_, .tail _ (.head _), ?_⟩)
    rw [Node.walk_eq]
    exact .head _

end ScriptTree
