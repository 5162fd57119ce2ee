import ScriptTree.Proofs.Frames

/-!
# Runs on a chain of scopes

Scopes are opened and closed, names are declared and words are used as keywords, in any order. What
a scope knows stays until the scope is closed (`frames_of_run`). So a word that a scope has marked as
a keyword is barred there from then on. But only the first use of a keyword in nested scopes marks
it: in a scope inside the one that is marked, the word can still be declared (`barred_iff`). Entries
are never written twice, and a scope that is closed leaves the chain as it was
(`entries_written_once`).
-/

namespace ScriptTree

inductive ScopeStep where
  | push
  | pop
  | define (node : Node)
  | reserve (node : Node)

def ScopeStep.change (c : ScopeChain) : ScopeStep → Except SyntaxError ScopeChain
  | push => .ok c.push
  | pop => .ok c.pop
  | define node => c.define node
  | reserve node => c.reserve node

namespace ScopeChain

/-- The chain after a step; one that fails changes nothing. -/
def after (c : ScopeChain) (step : ScopeStep) : ScopeChain :=
  match step.change c with
  | .ok d => d
  | .error _ => c

def run (c : ScopeChain) (steps : List ScopeStep) : ScopeChain := steps.foldl after c

/-- The steps do not close the innermost scope of the chain. -/
def KeepsOpen (c : ScopeChain) (steps : List ScopeStep) : Prop :=
  ∀ taken, taken <+: steps → c.depth ≤ (c.run taken).depth

/-- The name is refused in the innermost scope, as the word of a keyword, whatever happens until
that scope is closed. -/
def Barred (c : ScopeChain) (name : String) : Prop :=
  ∀ steps, c.KeepsOpen steps → (c.run steps).depth = c.depth →
    ∀ node : Node, node.form = .name name →
      (c.run steps).define node = .error ⟨.alreadyReserved name, node.position⟩

/-! ## The list of scopes -/

theorem toList_eq (c : ScopeChain) : c.toList = c.current :: c.toList.tail := by
  unfold toList current
  cases c.nested <;> rfl

theorem length_toList (c : ScopeChain) : c.toList.length = c.depth := by
  simp [toList, depth]

theorem toList_push (c : ScopeChain) : c.push.toList = .empty :: c.toList := rfl

theorem toList_insert (c : ScopeChain) (name : String) (known : Definition) :
    (c.insert name known).toList = c.current.insert name known :: c.toList.tail := by
  rw [toList_eq, current_insert, toList_insert_tail]

theorem eq_of_toList {c d : ScopeChain} (h : c.toList = d.toList) : c = d := by
  obtain ⟨nested, global⟩ := c
  obtain ⟨nested', global'⟩ := d
  obtain ⟨rfl, hg⟩ := List.append_inj' h rfl
  cases hg
  rfl

/-- The global scope is never closed. -/
theorem pop_cases (c : ScopeChain) : c.pop = c ∨ c.pop.toList = c.toList.tail := by
  obtain ⟨nested, global⟩ := c
  cases nested with
  | nil => exact .inl rfl
  | cons scope outer => exact .inr rfl

theorem lookup?_eq_none {c : ScopeChain} {name : String} :
    c.lookup? name = none ↔ ∀ scope ∈ c.toList, scope.lookup? name = none := by
  unfold lookup?
  exact List.findSome?_eq_none_iff

/-! ## What a run keeps -/

/-- The second chain is the first one, but for new names in its innermost scope, and for scopes that
were opened inside that. -/
def Encloses (c d : ScopeChain) : Prop := ∃ e inner, c.Frames e ∧ d.toList = inner ++ e.toList

theorem Encloses.refl (c : ScopeChain) : c.Encloses c := ⟨c, [], .refl c, rfl⟩

theorem Encloses.push {c d : ScopeChain} (h : c.Encloses d) : c.Encloses d.push := by
  obtain ⟨e, inner, hf, hd⟩ := h
  exact ⟨e, .empty :: inner, hf, by rw [toList_push, hd, List.cons_append]⟩

theorem Encloses.pop {c d : ScopeChain} (h : c.Encloses d) (hd : c.depth ≤ d.pop.depth) :
    c.Encloses d.pop := by
  obtain hp | hp := d.pop_cases
  · rwa [hp]
  · obtain ⟨e, inner, hf, hl⟩ := h
    cases inner with
    | nil =>
      -- then the scope that is closed would be the innermost one of the first chain
      have hlength := congrArg List.length hp
      rw [hl, List.nil_append, List.length_tail, length_toList, length_toList, hf.depth] at hlength
      have : 0 < c.depth := Nat.succ_pos _
      omega
    | cons scope inner => exact ⟨e, inner, hf, by rw [hp, hl, List.cons_append, List.tail_cons]⟩

theorem Encloses.insert {c d : ScopeChain} {name : String} (h : c.Encloses d) (known : Definition)
    (hn : d.current.lookup? name = none) : c.Encloses (d.insert name known) := by
  obtain ⟨e, inner, hf, hl⟩ := h
  cases inner with
  | nil =>
    have he : d = e := eq_of_toList hl
    subst he
    exact ⟨_, [], hf.trans (frames_insert known hn), rfl⟩
  | cons scope inner =>
    refine ⟨e, d.current.insert name known :: inner, hf, ?_⟩
    rw [toList_insert, hl, List.cons_append, List.tail_cons, List.cons_append]

theorem encloses_after {c d : ScopeChain} (h : c.Encloses d) (step : ScopeStep)
    (hd : c.depth ≤ (d.after step).depth) : c.Encloses (d.after step) := by
  unfold after at hd ⊢
  cases hs : step.change d with
  | error e => exact h
  | ok d' =>
    rw [hs] at hd
    cases step with
    | push =>
      cases hs
      exact h.push
    | pop =>
      cases hs
      exact h.pop hd
    | define node =>
      obtain ⟨name, -, hn, rfl⟩ := define_eq_ok hs
      exact h.insert _ hn
    | reserve node =>
      obtain rfl | ⟨name, -, hn, rfl⟩ := reserve_eq_ok hs
      · exact h
      · exact h.insert _ hn

theorem encloses_run {c d : ScopeChain} (steps : List ScopeStep) (h : c.Encloses d)
    (hk : ∀ taken, taken <+: steps → c.depth ≤ (d.run taken).depth) : c.Encloses (d.run steps) := by
  induction steps generalizing d with
  | nil => exact h
  | cons step rest ih =>
    have hstep : c.depth ≤ (d.after step).depth := hk [step] ⟨rest, rfl⟩
    refine ih (encloses_after h step hstep) ?_
    intro taken ht
    exact hk (step :: taken) (List.cons_prefix_cons.mpr ⟨rfl, ht⟩)

/-- **Until a scope is closed, it only gains names**, and those outside it stay as they are. -/
theorem frames_of_run {c : ScopeChain} {steps : List ScopeStep} (hk : c.KeepsOpen steps)
    (hd : (c.run steps).depth = c.depth) : c.Frames (c.run steps) := by
  obtain ⟨e, inner, hf, hl⟩ := encloses_run steps (.refl c) hk
  -- at the same depth no scope is open inside
  have hlength := congrArg List.length hl
  rw [List.length_append, length_toList, length_toList, hd, hf.depth] at hlength
  have hinner : inner = [] := List.eq_nil_of_length_eq_zero (by omega)
  subst hinner
  rwa [eq_of_toList hl]

/-! ## Barred names -/

variable {c d : ScopeChain} {node : Node} {name : String} {known : Definition}

theorem define_of_known (hn : node.form = .name name) (h : c.current.lookup? name = some known) :
    c.define node =
      .error ⟨if known.isReserved then .alreadyReserved name else .alreadyDefined name,
        node.position⟩ := by
  unfold define
  simp only [hn, h]

theorem define_of_unknown (hn : node.form = .name name) (h : c.current.lookup? name = none) :
    c.define node = .ok (c.insert name ⟨node, false⟩) := by
  unfold define
  simp only [hn, h]

theorem barred_of_reserved (h : c.current.lookup? name = some known)
    (hr : known.isReserved = true) : c.Barred name := by
  intro steps hk hd node hn
  have hkept := (frames_of_run hk hd).kept name known h
  rw [define_of_known hn hkept, if_pos hr]

theorem not_barred_of_unknown (h : c.current.lookup? name = none) : ¬ c.Barred name := by
  intro hb
  have hopen : c.KeepsOpen [] := by
    intro taken ht
    rw [List.prefix_nil.mp ht]
    exact Nat.le_refl _
  have he := hb [] hopen rfl (.ofName name .start) rfl
  rw [show c.run [] = c from rfl, define_of_unknown rfl h] at he
  cases he

theorem reserve_of_unknown (hn : node.form = .name name) (h : c.lookup? name = none) :
    c.reserve node = .ok (c.insert name ⟨node, true⟩) := by
  have hc : c.current.lookup? name = none := by
    apply lookup?_eq_none.mp h
    rw [toList_eq]
    exact List.mem_cons_self
  unfold reserve isReserved
  simp [hn, h, hc]

theorem reserve_of_known (hn : node.form = .name name) (h : c.lookup? name = some known)
    (hr : known.isReserved = true) : c.reserve node = .ok c := by
  unfold reserve isReserved
  simp [hn, h, hr]

/-- **What the use of a keyword bars.** A word that no open scope has declared as a variable can be used
as a keyword. It is barred in the innermost scope from then on if that scope has marked it, now or
earlier; it is not if an enclosing scope alone has. -/
theorem barred_iff (hn : node.form = .name name)
    (hv : ∀ scope ∈ c.toList, ∀ known, scope.lookup? name = some known → known.isReserved = true)
    (h : c.reserve node = .ok d) : d.Barred name ↔
      (∃ known, c.current.lookup? name = some known) ∨
        ∀ scope ∈ c.toList.tail, scope.lookup? name = none := by
  cases hl : c.lookup? name with
  | none =>
    rw [reserve_of_unknown hn hl] at h
    cases h
    have hnew : (c.insert name ⟨node, true⟩).current.lookup? name = some ⟨node, true⟩ := by
      rw [current_insert, Scope.lookup?_insert, if_pos rfl]
    have houter : ∀ scope ∈ c.toList.tail, scope.lookup? name = none :=
      fun scope hs => lookup?_eq_none.mp hl scope (List.mem_of_mem_tail hs)
    exact iff_of_true (barred_of_reserved hnew rfl) (.inr houter)
  | some known =>
    obtain ⟨scope, hs, hk⟩ := List.exists_of_findSome?_eq_some hl
    rw [reserve_of_known hn hl (hv scope hs known hk)] at h
    cases h
    cases hc : c.current.lookup? name with
    | some own =>
      have hown : own.isReserved = true := by
        apply hv c.current _ own hc
        rw [toList_eq]
        exact List.mem_cons_self
      exact iff_of_true (barred_of_reserved hc hown) (.inl ⟨own, rfl⟩)
    | none =>
      refine iff_of_false (not_barred_of_unknown hc) ?_
      rintro (⟨own, ho⟩ | houter)
      · cases ho
      · -- an enclosing scope knows the word
        rw [toList_eq] at hs
        cases hs with
        | head => rw [hc] at hk; cases hk
        | tail _ hs => rw [houter scope hs] at hk; cases hk

/-- A keyword that is used in a block can be declared there if it was used before the block. -/
theorem barred_iff_at_block :
    let word := Node.ofName "if" .start
    let outside := empty.run [.reserve word]
    let inside := outside.run [.push, .reserve word]
    outside.Barred "if" ∧ ¬ inside.Barred "if" := by
  intro word outside inside
  have hn : word.form = .name "if" := rfl
  have hempty : ∀ scope ∈ empty.toList, ∀ known, scope.lookup? "if" = some known →
      known.isReserved = true := by
    intro scope hs known hk
    rw [List.mem_singleton.mp hs] at hk
    cases hk
  have hpush : ∀ scope ∈ outside.push.toList, ∀ known, scope.lookup? "if" = some known →
      known.isReserved = true := by
    intro scope hs known hk
    cases hs with
    | head => cases hk
    | tail _ hs =>
      rw [List.mem_singleton.mp hs] at hk
      cases hk
      rfl
  constructor
  · apply (barred_iff hn hempty rfl).mpr
    exact .inr fun scope hs => nomatch hs
  · intro hb
    rcases (barred_iff hn hpush rfl).mp hb with ⟨known, hk⟩ | houter
    · cases hk
    · exact absurd (houter _ List.mem_cons_self) (by decide)

/-! ## What is written stays -/

/-- What an open scope knows about a name; the scopes are counted from the global one on. -/
def entryAt? (c : ScopeChain) (level : Nat) (name : String) : Option Definition :=
  c.toList.reverse[level]?.bind (·.lookup? name)

variable {level : Nat}

theorem reverse_toList (c : ScopeChain) : c.toList.reverse = c.toList.tail.reverse ++ [c.current] := by
  conv => lhs; rw [toList_eq]
  exact List.reverse_cons

theorem entryAt?_of_lt (h : level < c.toList.tail.length) :
    c.entryAt? level name = c.toList.tail.reverse[level]?.bind (·.lookup? name) := by
  unfold entryAt?
  rw [reverse_toList, List.getElem?_append_left (by simpa using h)]

theorem entryAt?_of_eq (h : level = c.toList.tail.length) :
    c.entryAt? level name = c.current.lookup? name := by
  unfold entryAt?
  rw [reverse_toList, List.getElem?_append_right (by simp [h])]
  simp [h]

theorem entryAt?_of_depth_le (h : c.depth ≤ level) : c.entryAt? level name = none := by
  unfold entryAt?
  rw [List.getElem?_eq_none (by simpa [length_toList] using h)]
  rfl

theorem entryAt?_push (c : ScopeChain) (name : String) (h : level < c.depth) :
    c.push.entryAt? level name = c.entryAt? level name := by
  rw [entryAt?_of_lt (by simpa [toList_push, length_toList] using h), toList_push]
  rfl

theorem entryAt?_pop (c : ScopeChain) (name : String) (h : level < c.pop.depth) :
    c.pop.entryAt? level name = c.entryAt? level name := by
  obtain hp | hp := c.pop_cases
  · rw [hp]
  · have hlt : level < c.toList.tail.length := by rwa [← length_toList, hp] at h
    rw [entryAt?_of_lt hlt, entryAt?, hp]

theorem entryAt?_insert (other : Definition) (hn : c.current.lookup? name = none) {word : String}
    (h : c.entryAt? level word = some known) : (c.insert name other).entryAt? level word = some known := by
  have htail := toList_insert_tail c name other
  by_cases hlt : level < c.toList.tail.length
  · rw [entryAt?_of_lt (by rwa [htail]), htail, ← entryAt?_of_lt hlt, h]
  · by_cases heq : level = c.toList.tail.length
    · rw [entryAt?_of_eq heq] at h
      have hne : word ≠ name := by
        intro hw
        rw [hw, hn] at h
        cases h
      rw [entryAt?_of_eq (by rwa [htail]), current_insert, Scope.lookup?_insert, if_neg hne, h]
    · have hdepth : c.depth ≤ level := by
        rw [← length_toList, toList_eq, List.length_cons]
        omega
      rw [entryAt?_of_depth_le hdepth] at h
      cases h

theorem entryAt?_after (step : ScopeStep) (h : c.entryAt? level name = some known)
    (hopen : level < (c.after step).depth) : (c.after step).entryAt? level name = some known := by
  unfold after at hopen ⊢
  cases hs : step.change c with
  | error e => exact h
  | ok d =>
    rw [hs] at hopen
    cases step with
    | push =>
      cases hs
      have hlt : level < c.depth := by
        by_cases hd : level < c.depth
        · exact hd
        · rw [entryAt?_of_depth_le (Nat.le_of_not_lt hd)] at h
          cases h
      exact (entryAt?_push c name hlt).trans h
    | pop =>
      cases hs
      exact (entryAt?_pop c name hopen).trans h
    | define node =>
      obtain ⟨word, -, hn, rfl⟩ := define_eq_ok hs
      exact entryAt?_insert _ hn h
    | reserve node =>
      obtain rfl | ⟨word, -, hn, rfl⟩ := reserve_eq_ok hs
      · exact h
      · exact entryAt?_insert _ hn h

theorem entryAt?_run (steps : List ScopeStep) (h : c.entryAt? level name = some known)
    (hopen : ∀ taken, taken <+: steps → level < (c.run taken).depth) :
    (c.run steps).entryAt? level name = some known := by
  induction steps generalizing c with
  | nil => exact h
  | cons step rest ih =>
    have hstep : level < (c.after step).depth := hopen [step] ⟨rest, rfl⟩
    refine ih (entryAt?_after step h hstep) ?_
    intro taken ht
    exact hopen (step :: taken) (List.cons_prefix_cons.mpr ⟨rfl, ht⟩)

theorem run_append (c : ScopeChain) (steps more : List ScopeStep) :
    c.run (steps ++ more) = (c.run steps).run more := List.foldl_append

/-- On the scopes of a parser, a step makes its change or fails, and then the parser is as it was. -/
theorem changeScopes_step (step : ScopeStep) (p : Parser) :
    let run := Parse.changeScopes (ScopeStep.change · step) p
    run.2.scopes = p.scopes.after step ∧ ∀ e, run.1 = .error e → run.2 = p := by
  unfold Parse.changeScopes after
  dsimp only
  cases step.change p.scopes with
  | ok d => exact ⟨rfl, fun e he => by cases he⟩
  | error e => exact ⟨rfl, fun _ _ => rfl⟩

/-- **Entries are written once.** What a scope knows stays as it is until the scope is closed. A step
that fails changes nothing. And behind the end of a scope the chain is what it was in front of it, so
that all words are read as they were. -/
theorem entries_written_once (c : ScopeChain) (steps : List ScopeStep) :
    (∀ level name known, c.entryAt? level name = some known →
      (∀ taken, taken <+: steps → level < (c.run taken).depth) →
      (c.run steps).entryAt? level name = some known) ∧
    (∀ step p, p.scopes = c.run steps →
      let run := Parse.changeScopes (ScopeStep.change · step) p
      run.2.scopes = c.run (steps ++ [step]) ∧ ∀ e, run.1 = .error e → run.2 = p) ∧
    (c.push.KeepsOpen steps → (c.push.run steps).depth = c.push.depth →
      let behind := c.run (.push :: steps ++ [.pop])
      behind = c ∧ ∀ table name, behind.resolve table name = c.resolve table name) := by
  refine ⟨fun level name known => entryAt?_run steps, fun step p hp => ?_, fun hk hd => ?_⟩
  · obtain ⟨hscopes, hfail⟩ := changeScopes_step step p
    rw [hp] at hscopes
    exact ⟨hscopes.trans (run_append c steps [step]).symm, hfail⟩
  · have hrun : c.run (.push :: steps ++ [.pop]) = c := by
      rw [run_append]
      exact pop_of_frames_push (frames_of_run hk hd)
    exact ⟨hrun, fun table name => by rw [hrun]⟩

/-- In a block a variable is hidden and a word marked, a name is refused and a scope too many closed. -/
theorem entries_written_once_at_block :
    let x := Node.ofName "x" .start
    let outside := empty.run [.pop, .define x]
    let inside := [ScopeStep.define x, .reserve (.ofName "if" .start), .define x, .push, .pop]
    let p : Parser := { Parser.start [] with scopes := outside.run inside }
    outside.entryAt? 0 "x" = some ⟨x, false⟩ ∧ (outside.run (.pop :: inside)).entryAt? 0 "x" = some ⟨x, false⟩ ∧
      (Parse.changeScopes (·.define x) p).2 = p ∧ outside.run (.push :: inside ++ [.pop]) = outside := by
  intro x outside inside p
  have hx : outside.entryAt? 0 "x" = some ⟨x, false⟩ := rfl
  have hglobal : ∀ taken, taken <+: .pop :: inside → 0 < (outside.run taken).depth :=
    fun _ _ => Nat.succ_pos _
  have hopen : outside.push.KeepsOpen inside := by
    intro taken ht
    have hall : ∀ n < 6, outside.push.depth ≤ (outside.push.run (inside.take n)).depth := by decide
    have hlength : taken.length < 6 := Nat.lt_succ_of_le ht.length_le
    rw [List.prefix_iff_eq_take.1 ht]
    exact hall _ hlength
  refine ⟨hx, (entries_written_once outside _).1 0 "x" _ hx hglobal, ?_, ?_⟩
  · exact ((entries_written_once outside inside).2.1 (.define x) p rfl).2 _ rfl
  · exact ((entries_written_once outside inside).2.2 hopen (by decide)).1

end ScopeChain

end ScriptTree
