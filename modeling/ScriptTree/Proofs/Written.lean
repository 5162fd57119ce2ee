import ScriptTree.Proofs.Bare
import ScriptTree.Proofs.Language
import ScriptTree.Proofs.Numerals
import ScriptTree.Proofs.Spelling

/-!
# What is written

Every part of a bare tree of the language is written as a text that yields words of the language, from
which the same part is derived: an operand as a primary one, since its operations stand in parentheses,
and statements as statements that declare no more names.
-/

namespace ScriptTree

open Piece

/-! ## Nodes that can be written -/

def Node.number? (node : Node) : Option Number :=
  match node.form with
  | .literal (.number n) => if node.id = literalId then some n else none
  | _ => none

theorem Node.number?_eq_some {node : Node} {n : Number} :
    node.number? = some n ↔ node.form = .literal (.number n) ∧ node.id = literalId := by
  unfold number?
  split
  · rename_i m hform
    simp [hform, and_comm]
  · rename_i hform
    exact iff_of_false nofun fun h => hform n h.1

def Node.object? (node : Node) : Option Node :=
  match node.form with
  | .member object _ => some object
  | _ => none

def Number.isFinite : Number → Bool
  | .finite .. => true
  | _ => false

/-- A numeral is one of a finite number, and no property is taken of a numeral. -/
structure Node.Writable (node : Node) : Prop where
  finite : ∀ n ∈ node.number?, n.isFinite = true
  member : ∀ object ∈ node.object?, object.number? = none

def Node.glue (node : Node) : Char → Bool :=
  if node.number?.isSome then continuesNumeral else isNameChar

theorem Node.continuesNumeral_of_glue {node : Node} {c : Char} (h : node.glue c = true) :
    continuesNumeral c = true := by
  unfold glue at h
  split at h
  · exact h
  · rw [continuesNumeral, h, Bool.true_or]

theorem Node.glue_of_isNameChar {node : Node} {c : Char} (h : isNameChar c = true) :
    node.glue c = true := by
  unfold glue
  split
  · rw [continuesNumeral, h, Bool.true_or]
  · exact h

def Node.Written (node : Node) : Prop :=
  ∃ ws, Yields node.glue (node.write .operand) ws ∧ Derives True (.operand .primary node) ws

theorem Node.Written.loose {node : Node} (h : node.Written) :
    ∃ ws, Yields continuesNumeral (node.write .operand) ws ∧
      ∀ level, Derives True (.operand level node) ws := by
  obtain ⟨ws, hy, hd⟩ := h
  exact ⟨ws, hy.loosen fun _ => Node.continuesNumeral_of_glue,
    fun level => hd.weaken level (Nat.zero_le _)⟩

theorem written_of_closed {node : Node} {ws : List Word} (hy : Closed (node.write .operand) ws)
    (hd : Derives True (.operand .primary node) ws) : node.Written :=
  ⟨ws, hy.loosen fun _ h => (Bool.false_ne_true h).elim, hd⟩

/-- An operation is written in parentheses of its own. -/
theorem written_of_group {node : Node} {ws vs : List Word} (hy : Closed (node.write .operand) vs)
    (hd : Derives True (.operand .expression node) ws)
    (hvs : vs = (.operator, "(") :: (ws ++ [(.operator, ")")])) : node.Written :=
  written_of_closed (hvs ▸ hy) (.group hd)

def ListKind.write (kind : ListKind) (nodes : List Node) : String :=
  match kind with
  | entries => writeEntries nodes
  | _ => writeItems nodes

def WrittenUpTo (bracket : Bracket) (kind : ListKind) (nodes : List Node) (names : List String) :
    Prop :=
  ∃ ws, Yields continuesNumeral (kind.write nodes) ws ∧
    Derives True (.upTo bracket kind nodes names) (ws ++ [(.operator, bracket.close)])

theorem closed_open : Closed "(" [(.operator, "(")] := closed_signs "(" ["("] rfl

/-! ## Operands -/

theorem written_of_name {node : Node} {text : String} (htext : node.write .operand = text)
    (hy : Yields isNameChar text [(.name, text)])
    (hd : Derives True (.operand .primary node) [(.name, text)]) : node.Written := by
  refine ⟨_, ?_, hd⟩
  rw [htext]
  exact hy.loosen fun _ => Node.glue_of_isNameChar

theorem written_unsigned {n : Number} (hn : n.isUnsigned = true)
    (hw : (Node.ofValue (.number n) .start).Writable) :
    (Node.ofValue (.number n) .start).Written := by
  have hfinite := hw.finite n rfl
  cases n with
  | nan => cases hfinite
  | infinity negative => cases hfinite
  | finite negative rank =>
    have hsign : (!negative) = true := hn
    obtain rfl : negative = false := by simpa using hsign
    obtain ⟨hnumeral, htext⟩ := Number.text_finite rank
    exact ⟨_, yields_number hnumeral, .number htext⟩

theorem written_string (text : String) : (Node.ofValue (.string text) .start).Written :=
  written_of_closed (closed_string text) .string

theorem written_constant {id : String} (hid : id ∈ ["true", "false", "null", "pi"]) :
    (Node.plain id (.literal (SymbolTable.grammar.constantOf id))).Written := by
  have hne : id ≠ literalId := by
    rintro rfl
    exact absurd hid (by decide)
  have hword : ∀ id ∈ ["true", "false", "null", "pi"], isWord id = true := by decide
  exact written_of_name (if_neg hne) (yields_keyword id (hword id hid)) (.constant hid)

theorem written_array {nodes : List Node} (h : WrittenUpTo .square .items nodes []) :
    (Node.plain "[" (.array nodes)).Written := by
  obtain ⟨ws, hy, hd⟩ := h
  have hyields := ((closed_signs "[" ["["] rfl).join hy).sign "]" ["]"] rfl rfl
  exact written_of_closed hyields (.array hd)

theorem written_object {nodes : List Node} (h : WrittenUpTo .curly .entries nodes []) :
    (Node.plain "\x7b" (.object nodes)).Written := by
  obtain ⟨ws, hy, hd⟩ := h
  have hyields := ((closed_signs "\x7b" ["\x7b"] rfl).join hy).sign "\x7d" ["\x7d"] rfl rfl
  exact written_of_closed hyields (.object hd)

theorem written_member {object : Node} {text : String} (hs : Word.Spelled (.name, text))
    (hn : object.number? = none) (h : object.Written) :
    (Node.plain "." (.member object (.ofValue (.string text) .start))).Written := by
  obtain ⟨ws, hy, hd⟩ := h
  have hglue : object.glue = isNameChar := by
    rw [Node.glue, hn]
    rfl
  rw [hglue] at hy
  have hyields := (((closed_open.join hy).sign "." ["."] rfl rfl).join (yields_name hs)).sign
    ")" [")"] rfl rfl
  have hmember : Derives True (.operand .access (.plain "." (.member object
      (.ofValue (.string text) .start)))) (ws ++ [(.operator, "."), (.name, text)]) :=
    .member (hd.weaken .access (by decide))
  exact written_of_group hyields (hmember.weaken .expression (by decide)) (by simp)

theorem written_index {object index : Node} (ho : object.Written) (hi : index.Written) :
    (Node.plain "[" (.index object index)).Written := by
  obtain ⟨ws, hy, hd⟩ := ho.loose
  obtain ⟨vs, hy', hd'⟩ := hi.loose
  have hyields := (((closed_open.join hy).sign "[" ["["] rfl rfl).join hy').sign "])" ["]", ")"]
    rfl rfl
  exact written_of_group hyields ((Derives.index (hd _) (hd' _)).weaken _ (by decide)) (by simp)

theorem written_call {callee : Node} {nodes : List Node} (hcall : callee.form.isCallable = true)
    (hc : callee.Written) (h : WrittenUpTo .round .items nodes []) :
    (Node.plain "(" (.call callee nodes)).Written := by
  obtain ⟨ws, hy, hd⟩ := hc.loose
  obtain ⟨vs, hy', hd'⟩ := h
  have hyields := (((closed_open.join hy).sign "(" ["("] rfl rfl).join hy').sign "))" [")", ")"]
    rfl rfl
  exact written_of_group hyields ((Derives.call hcall (hd _) hd').weaken _ (by decide))
    (by simp [Bracket.close])

theorem written_unary {w : Word} {operand : Node}
    (hw : w ∈ [(.operator, "-"), (.operator, "!"), (.name, "typeof")]) (h : operand.Written) :
    (Node.plain w.2 (.unary operand)).Written := by
  obtain ⟨ws, hy, hd⟩ := h.loose
  have hword : ∃ p, Yields p w.2 [w] ∧ startsOutside p " " = true := by
    simp only [List.mem_cons, List.not_mem_nil, or_false] at hw
    rcases hw with rfl | rfl | rfl
    · exact ⟨_, yields_operator _ rfl, by decide⟩
    · exact ⟨_, yields_operator _ rfl, by decide⟩
    · exact ⟨_, yields_keyword "typeof" rfl, by decide⟩
  obtain ⟨p, hyw, hblank⟩ := hword
  have hyields := ((closed_open.join hyw).sign " " [] rfl hblank).join hy |>.sign
    ")" [")"] rfl rfl
  exact written_of_group hyields ((Derives.unary hw (hd _)).weaken _ (by decide)) (by simp)

theorem closed_between {id left right : String} {ws vs : List Word} (hid : isJoined id = true)
    (hy : Yields continuesNumeral left ws) (hy' : Yields continuesNumeral right vs) :
    Closed ("(" ++ left ++ " " ++ id ++ " " ++ right ++ ")")
      ((.operator, "(") :: ((ws ++ (.operator, id) :: vs) ++ [(.operator, ")")])) := by
  have hyields := ((((closed_open.join hy).sign " " [] rfl rfl).join (yields_operator id hid)).sign
    " " [] rfl rfl).join hy' |>.sign ")" [")"] rfl rfl
  simpa using hyields

theorem isJoined_of_operators {level : Level} {id : String} (h : id ∈ level.operators) :
    isJoined id = true := by
  have hall : ∀ id ∈ level.operators, isJoined id = true := by cases level <;> decide
  exact hall id h

theorem written_binary {level : Level} {id : String} {left right : Node}
    (hid : id ∈ level.operators) (hl : left.Written) (hr : right.Written) :
    (Node.plain id (.binary left right)).Written := by
  obtain ⟨ws, hy, hd⟩ := hl.loose
  obtain ⟨vs, hy', hd'⟩ := hr.loose
  refine written_of_group (closed_between (isJoined_of_operators hid) hy hy') ?_ rfl
  exact (Derives.binary hid (hd _) (hd' _)).weaken _ (by cases level <;> decide)

theorem written_logic {id : String} {left right : Node} (hid : id ∈ ["&&", "||"])
    (hl : left.Written) (hr : right.Written) : (Node.plain id (.binary left right)).Written := by
  obtain ⟨ws, hy, hd⟩ := hl.loose
  obtain ⟨vs, hy', hd'⟩ := hr.loose
  have hall : ∀ id ∈ ["&&", "||"], isJoined id = true := by decide
  refine written_of_group (closed_between (hall id hid) hy hy') ?_ rfl
  exact (Derives.logic hid (hd _) (hd' _)).weaken _ (by decide)

theorem written_assignment {id : String} {target value : Node} (hid : id ∈ ["=", "+=", "-="])
    (hn : target.form.isAssignable = true) (ht : target.Written) (hv : value.Written) :
    (Node.plain id (.assignment target value)).Written := by
  obtain ⟨ws, hy, hd⟩ := ht.loose
  obtain ⟨vs, hy', hd'⟩ := hv.loose
  have hall : ∀ id ∈ ["=", "+=", "-="], isJoined id = true := by decide
  exact written_of_group (closed_between (hall id hid) hy hy') (.assignment hid hn (hd _) (hd' _)) rfl

theorem written_ternary {a b c : Node} (ha : a.Written) (hb : b.Written) (hc : c.Written) :
    (Node.plain "?" (.ternary a b c)).Written := by
  obtain ⟨ws, hy, hd⟩ := ha.loose
  obtain ⟨vs, hy', hd'⟩ := hb.loose
  obtain ⟨us, hy'', hd''⟩ := hc.loose
  have hyields := ((((closed_open.join hy).sign " ? " ["?"] rfl rfl).join hy').sign " : "
    [":"] rfl rfl).join hy'' |>.sign ")" [")"] rfl rfl
  exact written_of_group hyields (.ternary (hd _) (hd' _) (hd'' _)) (by simp)

/-! ## Lists -/

def WrittenElement (kind : ListKind) (nodes : List Node) (names : List String) : Prop :=
  ∃ node ws, nodes = [node] ∧ Yields continuesNumeral (kind.write [node]) ws ∧
    Derives True (.element kind nodes names) ws

def WrittenList (kind : ListKind) (nodes : List Node) (names : List String) : Prop :=
  nodes ≠ [] ∧ ∃ ws, Yields continuesNumeral (kind.write nodes) ws ∧
    Derives True (.list kind nodes names) ws

theorem write_more (kind : ListKind) (node : Node) {rest : List Node} (h : rest ≠ []) :
    kind.write (node :: rest) = kind.write [node] ++ ", " ++ kind.write rest := by
  obtain ⟨other, rest, rfl⟩ := List.exists_cons_of_ne_nil h
  cases kind with
  | entries => exact writeEntries_more node other rest
  | _ => exact writeItems_more node other rest

theorem written_item {node : Node} (h : node.Written) : WrittenElement .items [node] [] := by
  obtain ⟨ws, hy, hd⟩ := h.loose
  exact ⟨node, ws, rfl, hy, .item (hd _)⟩

theorem written_entry {value : Node} (key : String) (h : value.Written) :
    WrittenElement .entries [value.withKey key] [] := by
  obtain ⟨ws, hy, hd⟩ := h.loose
  have hyields := ((closed_string key).sign ": " [":"] rfl rfl).join hy
  refine ⟨_, _, rfl, ?_, .entry (w := (.string, key)) (.inr (.inl rfl)) (hd _)⟩
  obtain ⟨id, other, position, form⟩ := value
  exact hyields

theorem written_parameter {text : String} (hs : Word.Spelled (.name, text))
    (hk : isKeyword text = false) :
    WrittenElement .parameters [.ofName text .start] [text] := by
  have hy : Yields continuesNumeral text [(.name, text)] :=
    (yields_name hs).loosen fun c hc => by rw [continuesNumeral, hc, Bool.true_or]
  exact ⟨_, _, rfl, hy, .parameter hk⟩

theorem written_last {kind : ListKind} {nodes : List Node} {names : List String}
    (h : WrittenElement kind nodes names) : WrittenList kind nodes names := by
  obtain ⟨node, ws, rfl, hy, hd⟩ := h
  exact ⟨nofun, ws, hy, .last hd⟩

theorem written_more {kind : ListKind} {nodes rest : List Node} {names others : List String}
    (h : WrittenElement kind nodes names) (h' : WrittenList kind rest others) :
    WrittenList kind (nodes ++ rest) (names ++ others) := by
  obtain ⟨node, ws, rfl, hy, hd⟩ := h
  obtain ⟨hne, vs, hy', hd'⟩ := h'
  refine ⟨nofun, _, ?_, .more hd hd'⟩
  rw [List.singleton_append, write_more kind node hne]
  have hyields := (hy.sign ", " [","] rfl rfl).join hy'
  simpa using hyields

theorem written_closed (bracket : Bracket) (kind : ListKind) : WrittenUpTo bracket kind [] [] := by
  refine ⟨[], ?_, .closed⟩
  cases kind <;> exact yields_nothing.loosen fun _ h => (Bool.false_ne_true h).elim

theorem written_filled {bracket : Bracket} {kind : ListKind} {nodes : List Node}
    {names : List String} (h : WrittenList kind nodes names) :
    WrittenUpTo bracket kind nodes names := by
  obtain ⟨-, ws, hy, hd⟩ := h
  exact ⟨ws, hy, .filled hd⟩

/-! ## Lines of statements -/

def Node.WrittenConditional (node : Node) : Prop :=
  ∀ depth, ∃ ws, Closed (node.write (.statement depth)) ws ∧ Derives True (.conditional node) ws

/-- Statements are written as lines that declare none but these names. -/
structure WrittenLines (nodes : List Node) (names : List String) (ends : Bool) : Prop where
  lines : ∀ depth, ∃ ws kept, Closed (writeLines depth nodes) ws ∧
    Derives True (.statements nodes kept ends) ws ∧ kept.Sublist names
  conditional : ∀ node ∈ nodes, node.isConditional = true → node.WrittenConditional

structure Statements.Written (body : Statements) : Prop where
  block : ∀ depth, ∃ ws, Closed (body.write depth) ws ∧ Derives True (.block body) ws
  conditional : ∀ node ∈ body.toList, node.isConditional = true → node.WrittenConditional

def Statements.WrittenElse (read : Statements) : Prop :=
  ∀ depth, ∃ ws, Closed (read.writeElse depth) ws ∧ Derives True (.alternative read) ws

theorem closed_indentation (depth : Nat) : Closed (indentation depth) [] := by
  intro after vs _ hafter
  rw [indentation, String.toList_ofList]
  induction 2 * depth with
  | zero => exact hafter
  | succ n ih => exact .blank (by decide) ih

theorem writeLines_append (depth : Nat) (nodes rest : List Node) :
    writeLines depth (nodes ++ rest) = writeLines depth nodes ++ writeLines depth rest := by
  induction nodes with
  | nil => rw [List.nil_append, writeLines, String.empty_append]
  | cons node nodes ih =>
    rw [List.cons_append, writeLines, writeLines, ih]
    exact (String.append_assoc ..).symm

theorem Derives.append {functions : Prop} {nodes rest : List Node} {names others : List String}
    {ends : Bool} {ws vs : List Word} (h : Derives functions (.statements nodes names false) ws)
    (h' : Derives functions (.statements rest others ends) vs) :
    Derives functions (.statements (nodes ++ rest) (names ++ others) ends) (ws ++ vs) := by
  generalize hpart : Part.statements nodes names false = part at h
  induction h generalizing nodes names with
  | done =>
    cases hpart
    exact h'
  | next hd _ _ ih =>
    cases hpart
    simp only [List.append_assoc]
    exact .next hd (ih rfl)
  | _ => cases hpart

theorem lines_nothing (names : List String) : WrittenLines [] names false where
  lines _ := ⟨[], [], yields_nothing, .done, List.nil_sublist names⟩
  conditional _ hn := (List.not_mem_nil hn).elim

theorem lines_append {nodes rest : List Node} {names others : List String} {ends : Bool}
    (h : WrittenLines nodes names false) (h' : WrittenLines rest others ends) :
    WrittenLines (nodes ++ rest) (names ++ others) ends where
  lines depth := by
    obtain ⟨ws, kept, hy, hd, hk⟩ := h.lines depth
    obtain ⟨vs, more, hy', hd', hk'⟩ := h'.lines depth
    refine ⟨_, _, ?_, hd.append hd', hk.append hk'⟩
    rw [writeLines_append]
    exact hy.join hy'
  conditional node hn := (List.mem_append.1 hn).elim (h.conditional node) (h'.conditional node)

theorem lines_single {node : Node} {names : List String} {ends : Bool}
    (h : ∀ depth, ∃ ws, Closed (node.write (.statement depth)) ws ∧
      Derives True (.statement (.single node) names ends) ws)
    (hc : node.isConditional = true → node.WrittenConditional) :
    WrittenLines [node] names ends where
  lines depth := by
    obtain ⟨ws, hy, hd⟩ := h depth
    refine ⟨ws, names, ?_, ?_, List.Sublist.refl names⟩
    · rw [writeLines, writeLines, String.append_empty]
      have hyields := ((closed_indentation depth).join hy).sign "\n" [] rfl rfl
      simpa using hyields
    · cases ends with
      | true => exact .final hd
      | false => simpa [Statements.toList] using Derives.next hd .done
  conditional other hn := by
    obtain rfl := List.mem_singleton.1 hn
    exact hc

theorem Statements.write_ofList (depth : Nat) {nodes : List Node} (h : nodes ≠ []) :
    (Statements.ofList nodes).write depth = braced depth (writeLines (depth + 1) nodes) := by
  match nodes, h with
  | [node], _ => rw [ofList, write, writeLines, writeLines, String.append_empty]
  | _ :: _ :: _, _ => rfl

theorem written_body {nodes : List Node} {names : List String} {ends : Bool}
    (h : WrittenLines nodes names ends) (depth : Nat) :
    ∃ ws kept ends, Closed ((Statements.ofList nodes).write depth)
        ((.operator, "\x7b") :: (ws ++ [(.operator, "\x7d")])) ∧
      Derives True (.statements nodes kept ends) ws ∧ kept.Sublist names := by
  by_cases hne : nodes = []
  · subst hne
    have hyields := closed_signs "\x7b\x7d" ["\x7b", "\x7d"] rfl
    exact ⟨[], [], false, hyields, .done, List.nil_sublist names⟩
  · obtain ⟨ws, kept, hy, hd, hk⟩ := h.lines (depth + 1)
    refine ⟨ws, kept, ends, ?_, hd, hk⟩
    rw [Statements.write_ofList depth hne, braced]
    have hbrace := (closed_signs "\x7b\n" ["\x7b"] rfl).join hy
    have hyields := (hbrace.join (closed_indentation depth)).sign "\x7d" ["\x7d"] rfl rfl
    simpa using hyields

theorem written_block {nodes : List Node} {names : List String} {ends : Bool}
    (h : WrittenLines nodes names ends) (hn : names.Nodup) : (Statements.ofList nodes).Written where
  block depth := by
    obtain ⟨ws, kept, ends, hy, hd, hk⟩ := written_body h depth
    exact ⟨_, hy, .block hd (hk.nodup hn)⟩
  conditional := by
    rw [Statements.toList_ofList]
    exact h.conditional

theorem written_function {name : Option String} {parameters nodes : List Node}
    {names declared : List String} {ends : Bool} {ws : List Word}
    (hname : Yields isNameChar (name.getD "") ws) (hd : Derives True (.functionName name) ws)
    (hp : WrittenUpTo .round .parameters parameters names) (h : WrittenLines nodes declared ends)
    (hn : (name.toList ++ (names ++ declared)).Nodup) :
    (Node.plain "function" (.function name parameters (.ofList nodes))).Written := by
  obtain ⟨vs, hy, hd'⟩ := hp
  obtain ⟨us, kept, ends, hy', hd'', hk⟩ := written_body h 0
  have hnodup : (name.toList ++ (names ++ kept)).Nodup :=
    ((hk.append_left names).append_left name.toList).nodup hn
  have hfunction : Closed "(function " [(.operator, "("), (.name, "function")] :=
    (closed_open.join (yields_keyword "function" rfl)).sign " " [] rfl rfl
  have hlist := (((hfunction.join hname).sign "(" ["("] rfl rfl).join hy).sign ") " [")"] rfl rfl
  have hyields := (hlist.join hy').sign ")" [")"] rfl rfl
  have hderives := (Derives.function trivial hd hd' hd'' hnodup).weaken .expression (by decide)
  exact written_of_group hyields hderives (by simp [Bracket.close])

/-! ## Statements -/

/-- An operation is written in parentheses, so it starts no statement by a rule. -/
theorem head_of_operation {node : Node} {ws : List Word}
    (h : Derives True (.operand .primary node) ws)
    (hn : (node.form.isAssignment || node.form.isCall) = true) :
    ws.head? = some (.operator, "(") := by
  generalize hpart : Part.operand .primary node = part at h
  induction h with
  | raise _ ih =>
    cases hpart
    exact ih rfl
  | group =>
    rfl
  | _ => cases hpart <;> cases hn

theorem write_operation {node : Node} (hn : (node.form.isAssignment || node.form.isCall) = true)
    (depth : Nat) : node.write (.statement depth) = node.write .operand ++ ";" := by
  obtain ⟨id, key, position, form⟩ := node
  cases form with
  | assignment | call => rfl
  | _ => cases hn

theorem lines_expression {node : Node} (hn : (node.form.isAssignment || node.form.isCall) = true)
    (h : node.Written) : WrittenLines [node] [] false := by
  refine lines_single (fun depth => ?_) fun hc => ?_
  · obtain ⟨ws, hy, hd⟩ := h
    have hy := hy.loosen fun _ => Node.continuesNumeral_of_glue
    have hstarts : ∀ w ∈ ws.head?, w.startsStatement = false := by
      rw [head_of_operation hd hn]
      rintro _ ⟨⟩
      decide +kernel
    rw [write_operation hn]
    exact ⟨_, hy.sign ";" [";"] rfl rfl, .expressionStatement hn hstarts (hd.weaken _ (by decide))⟩
  · obtain ⟨id, key, position, form⟩ := node
    cases form with
    | ifElse => cases hn
    | _ => cases hc

theorem lines_block {body : Statements} (h : body.Written) :
    WrittenLines
      (if body.isEmpty then Statements.empty else .single (.plain "\x7b" (.block body))).toList
      [] false := by
  by_cases hempty : body.isEmpty = true
  · rw [if_pos hempty]
    exact lines_nothing []
  · rw [if_neg hempty]
    refine lines_single (fun depth => ?_) nofun
    obtain ⟨ws, hy, hd⟩ := h.block depth
    have hderives := Derives.blockStatement hd
    rw [if_neg hempty] at hderives
    exact ⟨ws, hy, hderives⟩

theorem lines_initialised {text : String} {value : Node} (hs : Word.Spelled (.name, text))
    (hk : isKeyword text = false) (h : value.Written) :
    WrittenLines [.plain "=" (.declaration (.ofName text .start) value)] [text] false := by
  refine lines_single (fun depth => ?_) nofun
  obtain ⟨ws, hy, hd⟩ := h.loose
  have hvar : Closed "var " [(.name, "var")] := (yields_keyword "var" rfl).sign " " [] rfl rfl
  have hequals : Closed " = " [(.operator, "=")] :=
    ((closed_signs " " [] rfl).join (yields_operator "=" rfl)).sign " " [] rfl rfl
  have hyields := (((hvar.join (yields_name hs)).follow hequals (by decide)).join hy).sign ";" [";"]
    rfl rfl
  refine ⟨_, ?_, .declaration (.last (.initialised hk (hd _)))⟩
  exact hyields.cast (by simp)

theorem lines_while {condition : Node} {body : Statements} (hc : condition.Written)
    (h : body.Written) : WrittenLines [.plain "while" (.whileLoop condition body)] [] false := by
  refine lines_single (fun depth => ?_) nofun
  obtain ⟨ws, hy, hd⟩ := hc.loose
  obtain ⟨vs, hy', hd'⟩ := h.block depth
  have hwhile : Closed "while (" [(.name, "while"), (.operator, "(")] :=
    (yields_keyword "while" rfl).sign " (" ["("] rfl rfl
  have hyields := ((hwhile.join hy).sign ") " [")"] rfl rfl).join hy'
  refine ⟨_, ?_, .whileLoop (hd _) hd'⟩
  exact hyields.cast (by simp)

theorem lines_conditional {node : Node} (h : node.WrittenConditional) :
    WrittenLines [node] [] false := by
  refine lines_single (fun depth => ?_) fun _ => h
  obtain ⟨ws, hy, hd⟩ := h depth
  exact ⟨ws, hy, .ifElse hd⟩

theorem lines_break : WrittenLines [.plain "break" .breakOut] [] true :=
  lines_single (fun _ => ⟨_, (yields_keyword "break" rfl).sign ";" [";"] rfl rfl, .breakOut⟩) nofun

theorem lines_return : WrittenLines [.plain "return" (.returnWith none)] [] true :=
  lines_single (fun _ => ⟨_, (yields_keyword "return" rfl).sign ";" [";"] rfl rfl, .returnNothing⟩)
    nofun

theorem lines_returnValue {value : Node} (h : value.Written) :
    WrittenLines [.plain "return" (.returnWith (some value))] [] true := by
  refine lines_single (fun depth => ?_) nofun
  obtain ⟨ws, hy, hd⟩ := h.loose
  have hreturn : Closed "return " [(.name, "return")] :=
    (yields_keyword "return" rfl).sign " " [] rfl rfl
  exact ⟨_, (hreturn.join hy).sign ";" [";"] rfl rfl, .returnValue (hd _)⟩

theorem written_conditional {condition : Node} {consequent alternative : Statements}
    (hc : condition.Written) (hs : consequent.Written) (ht : alternative.WrittenElse) :
    (Node.plain "if" (.ifElse condition consequent alternative)).WrittenConditional := by
  intro depth
  obtain ⟨ws, hy, hd⟩ := hc.loose
  obtain ⟨vs, hy', hd'⟩ := hs.block depth
  obtain ⟨us, hy'', hd''⟩ := ht depth
  have hif : Closed "if (" [(.name, "if"), (.operator, "(")] :=
    (yields_keyword "if" rfl).sign " (" ["("] rfl rfl
  have hyields := (((hif.join hy).sign ") " [")"] rfl rfl).join hy').join hy''
  refine ⟨_, ?_, .conditional (hd _) hd' hd''⟩
  exact hyields.cast (by simp)

theorem closed_else : Closed " else " [(.name, "else")] :=
  ((closed_signs " " [] rfl).join (yields_keyword "else" rfl)).sign " " [] rfl rfl

theorem writtenElse_nothing : Statements.empty.WrittenElse :=
  fun _ => ⟨[], yields_nothing, .noAlternative⟩

theorem writtenElse_conditional {node : Node} (hc : node.isConditional = true)
    (h : node.WrittenConditional) : (Statements.single node).WrittenElse := by
  intro depth
  obtain ⟨ws, hy, hd⟩ := h depth
  refine ⟨_, ?_, .elseIf hd⟩
  rw [Statements.writeElse, if_pos hc]
  exact closed_else.join hy

theorem writtenElse_block {body : Statements} (h : body.Written) : body.WrittenElse := by
  have hblock : ∀ depth, body.writeElse depth = " else " ++ body.write depth →
      ∃ ws, Closed (body.writeElse depth) ws ∧ Derives True (.alternative body) ws := by
    intro depth hw
    obtain ⟨ws, hy, hd⟩ := h.block depth
    exact ⟨_, hw ▸ closed_else.join hy, .elseBlock hd⟩
  cases body with
  | empty => exact writtenElse_nothing
  | single node =>
    by_cases hc : node.isConditional = true
    · exact writtenElse_conditional hc (h.conditional node (List.mem_singleton.2 rfl) hc)
    · exact fun depth => hblock depth (by rw [Statements.writeElse, if_neg hc]; rfl)
  | sequence nodes => exact fun depth => hblock depth rfl

end ScriptTree
