import ScriptTree.Proofs.Reading.Runs

/-!
# Scopes are framed

Whatever a parser reads, it leaves as many scopes open as it found, changes none of the outer ones,
and only adds to the innermost one. A block and a function leave the chain as it was.
-/

namespace ScriptTree

namespace ScopeChain

/-- The second chain is the first one, but for names that are new in the innermost scope. -/
structure Frames (before after : ScopeChain) : Prop where
  depth : after.depth = before.depth
  outer : after.toList.tail = before.toList.tail
  kept : ∀ name known, before.current.lookup? name = some known →
    after.current.lookup? name = some known

theorem Frames.refl (c : ScopeChain) : c.Frames c := ⟨rfl, rfl, fun _ _ h => h⟩

theorem Frames.trans {c d e : ScopeChain} (h : c.Frames d) (h' : d.Frames e) : c.Frames e :=
  ⟨h'.depth.trans h.depth, h'.outer.trans h.outer, fun _ _ hk => h'.kept _ _ (h.kept _ _ hk)⟩

theorem Scope.lookup?_insert (scope : Scope) (name other : String) (d : Definition) :
    (scope.insert name d).lookup? other = if other = name then some d else scope.lookup? other := by
  simp only [Scope.lookup?, Scope.insert, List.lookup_cons]
  by_cases h : other = name
  · simp [h]
  · rw [if_neg h, beq_false_of_ne h]

theorem current_insert (c : ScopeChain) (name : String) (d : Definition) :
    (c.insert name d).current = c.current.insert name d := by
  unfold insert current
  cases c.nested <;> rfl

theorem toList_insert_tail (c : ScopeChain) (name : String) (d : Definition) :
    (c.insert name d).toList.tail = c.toList.tail := by
  simp only [insert, toList]
  cases c.nested <;> simp

theorem depth_insert (c : ScopeChain) (name : String) (d : Definition) :
    (c.insert name d).depth = c.depth := by
  simp only [insert, depth]
  cases c.nested <;> simp

theorem frames_insert {c : ScopeChain} {name : String} (d : Definition)
    (h : c.current.lookup? name = none) : c.Frames (c.insert name d) where
  depth := depth_insert c name d
  outer := toList_insert_tail c name d
  kept other known hk := by
    have hne : other ≠ name := fun e => by rw [e, h] at hk; cases hk
    rw [current_insert, Scope.lookup?_insert, if_neg hne, hk]

theorem define_eq_ok {c d : ScopeChain} {node : Node} (h : c.define node = .ok d) :
    ∃ name, node.form = .name name ∧ c.current.lookup? name = none ∧
      d = c.insert name ⟨node, false⟩ := by
  unfold define at h
  split at h
  · rename_i name hn
    split at h
    · cases h
      exact ⟨name, hn, ‹_›, rfl⟩
    · cases h
  · cases h

theorem reserve_eq_ok {c d : ScopeChain} {node : Node} (h : c.reserve node = .ok d) :
    d = c ∨ ∃ name, node.form = .name name ∧ c.current.lookup? name = none ∧
      d = c.insert name ⟨node, true⟩ := by
  unfold reserve at h
  split at h
  · rename_i name hn
    split at h
    · cases h
      exact .inl rfl
    · split at h
      · cases h
      · rename_i hk
        cases h
        exact .inr ⟨name, hn, by simpa using hk, rfl⟩
  · cases h
    exact .inl rfl

theorem cause_of_define {c : ScopeChain} {node : Node} {e : SyntaxError}
    (h : c.define node = .error e) : e.cause = .noVariableName node.id ∨
      ∃ name, e.cause = .alreadyDefined name ∨ e.cause = .alreadyReserved name := by
  unfold define at h
  split at h
  · rename_i name hn
    split at h
    · cases h
    · rename_i known hk
      cases h
      refine .inr ⟨name, ?_⟩
      by_cases hr : known.isReserved = true
      · exact .inr (if_pos hr)
      · exact .inl (if_neg hr)
  · cases h
    exact .inl rfl

theorem cause_of_reserve {c : ScopeChain} {node : Node} {e : SyntaxError}
    (h : c.reserve node = .error e) : ∃ name, e.cause = .alreadyDefined name := by
  unfold reserve at h
  split at h
  · rename_i name hn
    split at h
    · cases h
    · split at h
      · cases h
        exact ⟨name, rfl⟩
      · cases h
  · cases h

theorem frames_define {c d : ScopeChain} {node : Node} (h : c.define node = .ok d) :
    c.Frames d := by
  obtain ⟨name, -, hk, rfl⟩ := define_eq_ok h
  exact frames_insert _ hk

theorem frames_reserve {c d : ScopeChain} {node : Node} (h : c.reserve node = .ok d) :
    c.Frames d := by
  obtain rfl | ⟨name, -, hk, rfl⟩ := reserve_eq_ok h
  · exact .refl _
  · exact frames_insert _ hk

/-- What was opened behind a chain is closed again. -/
theorem pop_of_frames_push {c d : ScopeChain} (h : c.push.Frames d) : d.pop = c := by
  have hd := h.depth
  have ho := h.outer
  obtain ⟨nested, global⟩ := c
  obtain ⟨nested', global'⟩ := d
  cases nested' with
  | nil => simp [depth, push] at hd
  | cons scope rest =>
    simp only [toList, push, List.cons_append, List.tail_cons] at ho
    obtain ⟨rfl, hg⟩ := List.append_inj' ho rfl
    cases hg
    rfl

end ScopeChain

open ScopeChain Actions

theorem scopes_of_moveOn {table : SymbolTable} {p q : Parser} {t : SymbolToken}
    (h : moveOn table p = (.ok t, q)) : q.scopes = p.scopes := by
  obtain ⟨-, ⟨hu, rfl⟩ | ⟨token, rest, id, hu, hc, rfl⟩⟩ := moveOn_eq_ok h
  · rfl
  · rfl

section
variable {table : SymbolTable} {act : Actions} (ha : act.Refines (standard table)) {p q : Parser}
  {t : SymbolToken} {u : Unit}
include ha

theorem frames_of_advance (h : act.advance p = (.ok t, q)) : p.scopes.Frames q.scopes := by
  rw [ha.advance] at h
  rw [scopes_of_moveOn h]
  exact .refl _

theorem frames_of_label (h : act.label p = (.ok t, q)) : p.scopes.Frames q.scopes := by
  rw [ha.label] at h
  rw [scopes_of_moveOn h]
  exact .refl _

theorem frames_of_expect {id : String} (h : act.expect id p = (.ok t, q)) :
    p.scopes.Frames q.scopes :=
  frames_of_advance ha (expect_eq_ok.1 h).2

theorem scopes_of_expect {id : String} (h : act.expect id p = (.ok t, q)) :
    q.scopes = p.scopes := by
  have hm := (expect_eq_ok.1 h).2
  rw [ha.advance] at hm
  exact scopes_of_moveOn hm

theorem frames_of_define {node : Node} (h : act.define t p = (.ok node, q)) :
    p.scopes.Frames q.scopes := by
  obtain ⟨scopes, hd, -, rfl⟩ := standard_define_eq_ok.1 (ha.define h)
  exact frames_define hd

theorem frames_of_reserve (h : act.reserve t p = (.ok u, q)) : p.scopes.Frames q.scopes := by
  rw [ha.reserve] at h
  obtain ⟨scopes, hr, rfl⟩ := standard_reserve_eq_ok.1 h
  split at hr
  · exact frames_reserve hr
  · cases hr
    exact .refl _

theorem scopes_of_scopeEnd {r s : Parser} {id : String} (ho : act.openScope p = (.ok u, q))
    (hf : q.scopes.Frames r.scopes) (hm : act.expectScopeEnd id r = (.ok t, s)) :
    s.scopes = p.scopes := by
  rw [ha.openScope] at ho
  cases standard_openScope_eq_ok.1 ho
  obtain ⟨-, _, r', hc, hm⟩ := expectScopeEnd_eq_ok.1 hm
  rw [ha.advance] at hm
  rw [ha.closeScope] at hc
  rw [scopes_of_moveOn hm]
  cases standard_closeScope_eq_ok.1 hc
  exact pop_of_frames_push hf

/-- **Every reading is framed.** -/
theorem frames_of_reads {phrase : Phrase} (h : Reads table act phrase p q) :
    p.scopes.Frames q.scopes := by
  induction h with
  | expression hm _ _ _ ih₁ ih₂ => exact (frames_of_advance ha hm).trans (ih₁.trans ih₂)
  | climb _ hm _ _ _ _ ih₁ ih₂ => exact (frames_of_advance ha hm).trans (ih₁.trans ih₂)
  | stay | name | number | string | anonymous | noAlternative | done => exact .refl _
  | self hr => exact frames_of_reserve ha hr
  | constant hr => exact frames_of_reserve ha hr
  | unary hr _ ih => exact (frames_of_reserve ha hr).trans ih
  | grouping _ hm ih => exact ih.trans (frames_of_expect ha hm)
  | array _ ih => exact ih
  | object _ ih => exact ih
  | function ho _ hs _ hb _ hm ih₁ ih₂ ih₃ =>
    have hf := ih₁.trans ((frames_of_expect ha hs).trans (ih₂.trans ((frames_of_expect ha hb).trans ih₃)))
    rw [scopes_of_scopeEnd ha ho hf hm]
    exact .refl _
  | named _ hd hm => exact (frames_of_define ha hd).trans (frames_of_advance ha hm)
  | binary _ ih => exact ih
  | binaryRight _ ih => exact ih
  | assignment _ _ ih => exact ih
  | ternary _ hm _ ih₁ ih₂ => exact ih₁.trans ((frames_of_expect ha hm).trans ih₂)
  | member _ hm => exact frames_of_label ha hm
  | index _ hm ih => exact ih.trans (frames_of_expect ha hm)
  | call _ _ ih => exact ih
  | item _ ih => exact ih
  | entry _ hl hm _ ih => exact (frames_of_label ha hl).trans ((frames_of_expect ha hm).trans ih)
  | parameter _ hd hm => exact (frames_of_define ha hd).trans (frames_of_advance ha hm)
  | uninitialised _ hd hm => exact (frames_of_define ha hd).trans (frames_of_advance ha hm)
  | initialised _ hd hm _ hs _ ih =>
    exact (frames_of_define ha hd).trans
      ((frames_of_advance ha hm).trans ((frames_of_advance ha hs).trans ih))
  | last _ _ ih => exact ih
  | more _ _ hm _ ih₁ ih₂ => exact ih₁.trans ((frames_of_expect ha hm).trans ih₂)
  | closed _ hm => exact frames_of_expect ha hm
  | filled _ _ hm ih => exact ih.trans (frames_of_expect ha hm)
  | expressionStatement _ _ _ hm ih => exact ih.trans (frames_of_expect ha hm)
  | ruled _ hm hr _ ih => exact (frames_of_advance ha hm).trans ((frames_of_reserve ha hr).trans ih)
  | blockStatement _ ih => exact ih
  | declaration _ hm ih => exact ih.trans (frames_of_expect ha hm)
  | whileLoop _ _ ih₁ ih₂ => exact ih₁.trans ih₂
  | ifElse _ _ _ ih₁ ih₂ ih₃ => exact ih₁.trans (ih₂.trans ih₃)
  | breakOut hm _ => exact frames_of_expect ha hm
  | returnNothing _ hm _ => exact frames_of_expect ha hm
  | returnValue _ _ hm _ ih => exact ih.trans (frames_of_expect ha hm)
  | condition ho _ hm ih => exact (frames_of_expect ha ho).trans (ih.trans (frames_of_expect ha hm))
  | elseIf _ hr hm _ _ ih => exact (frames_of_reserve ha hr).trans ((frames_of_expect ha hm).trans ih)
  | elseBlock _ hr hm _ _ ih => exact (frames_of_reserve ha hr).trans ((frames_of_expect ha hm).trans ih)
  | next _ _ _ ih₁ ih₂ => exact ih₁.trans ih₂
  | blockBody ho _ hm ih =>
    rw [scopes_of_scopeEnd ha ho ih hm]
    exact .refl _
  | block hm _ ih => exact (frames_of_expect ha hm).trans ih

theorem scopes_of_reads_blockBody {body : Statements}
    (h : Reads table act (.blockBody body) p q) : q.scopes = p.scopes := by
  cases h with
  | blockBody ho hs hm => exact scopes_of_scopeEnd ha ho (frames_of_reads ha hs) hm

theorem scopes_of_reads_block {body : Statements}
    (h : Reads table act (.block body) p q) : q.scopes = p.scopes := by
  cases h with
  | block hm hb => rw [scopes_of_reads_blockBody ha hb, scopes_of_expect ha hm]

theorem scopes_of_reads_function {token : SymbolToken} {node : Node}
    (h : Reads table act (.operand .function token node) p q) :
    q.scopes = p.scopes := by
  cases h with
  | function ho hn hs hp hb hbody hm =>
    exact scopes_of_scopeEnd ha ho ((frames_of_reads ha hn).trans ((frames_of_expect ha hs).trans
      ((frames_of_reads ha hp).trans ((frames_of_expect ha hb).trans (frames_of_reads ha hbody))))) hm

end

/-- **Scopes are balanced and framed**, whatever the symbol table and wherever the parser starts. -/
theorem scopes_framed (table : SymbolTable) (p q : Parser) :
    (∀ power node, Parse.expression table (standard table) power p = (.ok node, q) →
      p.scopes.Frames q.scopes) ∧
    (∀ read, Parse.statement table (standard table) p = (.ok read, q) →
      p.scopes.Frames q.scopes) ∧
    (∀ body, Parse.statements table (standard table) p = (.ok body, q) →
      p.scopes.Frames q.scopes) ∧
    (∀ body, Parse.block table (standard table) p = (.ok body, q) → q.scopes = p.scopes) ∧
    (∀ depth body, (Calls.nested table (standard table) depth).blockBody (standard table) p =
      (.ok body, q) → q.scopes = p.scopes) ∧
    (∀ depth token node, PrefixRule.function.parse table (standard table)
      (.nested table (standard table) depth) token p = (.ok node, q) → q.scopes = p.scopes) := by
  have ha := Refines.refl (standard table)
  have hc := Calls.sound_nested table (standard table)
  refine ⟨fun power node h => ?_, fun read h => ?_, fun body h => ?_, fun body h => ?_,
    fun depth body h => ?_, fun depth token node h => ?_⟩
  · exact frames_of_reads ha ((hc _).expression h)
  · exact frames_of_reads ha ((hc _).statement h)
  · obtain ⟨nodes, r, hn, he⟩ := Parse.bind_eq_ok.1 h
    obtain ⟨-, rfl⟩ := Parse.pure_eq_ok.1 he
    exact frames_of_reads ha ((hc _).statements hn)
  · exact scopes_of_reads_block ha (reads_of_block (hc _) h)
  · exact scopes_of_reads_blockBody ha (reads_of_blockBody (hc _) h)
  · exact scopes_of_reads_function ha (reads_of_operand (hc _) h)

def Parser.facing (words : List (TokenKind × String)) : Parser :=
  (Actions.moveOn .grammar (.start (words.map fun word => ⟨word.1, word.2, .start⟩))).2

theorem scopes_framed_at_words :
    let act := Actions.standard .grammar
    let var := [(.name, "var"), (.name, "x"), (.operator, ";")]
    let keyword : SymbolToken := ⟨"function", ⟨.name, "function", .start⟩⟩
    let expression := Parser.facing [(.name, "this")]
    let statement := Parser.facing var
    let block := Parser.facing (((.operator, "\x7b") :: var) ++ [(.operator, "\x7d")])
    let body := Parser.facing (var ++ [(.operator, "\x7d")])
    let function := Parser.facing [(.operator, "("), (.name, "x"), (.operator, ")"),
      (.operator, "\x7b"), (.operator, "\x7d")]
    (∃ node q, Parse.expression .grammar act .none expression = (.ok node, q) ∧
      expression.scopes.Frames q.scopes) ∧
    (∃ read q, Parse.statement .grammar act statement = (.ok read, q) ∧
      statement.scopes.Frames q.scopes) ∧
    (∃ read q, Parse.statements .grammar act body = (.ok read, q) ∧
      body.scopes.Frames q.scopes) ∧
    (∃ read q, Parse.block .grammar act block = (.ok read, q) ∧ q.scopes = block.scopes) ∧
    (∃ read q, (Calls.nested .grammar act body.reach).blockBody act body = (.ok read, q) ∧
      q.scopes = body.scopes) ∧
    (∃ node q, PrefixRule.function.parse .grammar act (.nested .grammar act function.reach)
      keyword function = (.ok node, q) ∧ q.scopes = function.scopes) := by
  intro act var keyword expression statement block body function
  refine ⟨⟨_, _, rfl, ?_⟩, ⟨_, _, rfl, ?_⟩, ⟨_, _, rfl, ?_⟩, ⟨_, _, rfl, ?_⟩, ⟨_, _, rfl, ?_⟩,
    ⟨_, _, rfl, ?_⟩⟩
  · exact (scopes_framed .grammar expression _).1 .none _ rfl
  · exact (scopes_framed .grammar statement _).2.1 _ rfl
  · exact (scopes_framed .grammar body _).2.2.1 _ rfl
  · exact (scopes_framed .grammar block _).2.2.2.1 _ rfl
  · exact (scopes_framed .grammar body _).2.2.2.2.1 body.reach _ rfl
  · exact (scopes_framed .grammar function _).2.2.2.2.2 function.reach keyword _ rfl

end ScriptTree
