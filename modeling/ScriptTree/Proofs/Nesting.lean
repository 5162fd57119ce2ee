import ScriptTree.Proofs.Mirrors
import ScriptTree.Proofs.ScopeRuns

/-!
# Keywords lie outside of variables

A scope may know a word as the name of a variable or as a keyword, and several open scopes may know
the same word. But a word is marked as a keyword only where it is read as one: then no scope knows it
as a variable, and if one has it as a keyword already, it is not marked again. So in every state of a
parse at most one of the open scopes has a word as a keyword, and it lies outside of all those that
have it as a variable. A run whose steps are checked raises an alarm where one of them leaves other
scopes (`script_checked`).
-/

namespace ScriptTree

/-! ## Scopes in order -/

namespace ScopeChain

def known? (c : ScopeChain) (place : Nat) (name : String) : Option Definition :=
  c.toList[place]?.bind (·.lookup? name)

/-- At most one scope has a name as a keyword, and those that have it as a variable lie inside. -/
structure Ordered (c : ScopeChain) : Prop where
  reserved_once {name i j known other} : c.known? i name = some known → known.isReserved = true →
    c.known? j name = some other → other.isReserved = true → i = j
  declared_inside {name i j known other} : c.known? i name = some known →
    known.isReserved = false → c.known? j name = some other → other.isReserved = true → i < j

def OrderedAt (c : ScopeChain) (name : String) : Prop :=
  c.toList.Pairwise fun inner outer =>
    (inner.lookup? name).any (·.isReserved) = true → outer.lookup? name = none

instance (c : ScopeChain) (name : String) : Decidable (c.OrderedAt name) :=
  inferInstanceAs (Decidable (List.Pairwise _ _))

variable {c : ScopeChain} {name : String}

theorem known?_eq_some {place : Nat} {known : Definition} : c.known? place name = some known ↔
    ∃ h : place < c.toList.length, c.toList[place].lookup? name = some known := by
  rw [known?, Option.bind_eq_some_iff]
  constructor
  · rintro ⟨scope, hscope, hk⟩
    obtain ⟨hlt, rfl⟩ := List.getElem?_eq_some_iff.1 hscope
    exact ⟨hlt, hk⟩
  · rintro ⟨hlt, hk⟩
    exact ⟨_, List.getElem?_eq_getElem hlt, hk⟩

theorem OrderedAt.le {i j : Nat} {known other : Definition} (h : c.OrderedAt name)
    (hi : c.known? i name = some known) (hr : known.isReserved = true)
    (hj : c.known? j name = some other) : j ≤ i := by
  obtain ⟨hlt, hknown⟩ := known?_eq_some.1 hi
  obtain ⟨hlt', hother⟩ := known?_eq_some.1 hj
  refine Nat.le_of_not_lt fun hij => ?_
  have hnone := List.pairwise_iff_getElem.1 h i j hlt hlt' hij
  rw [hknown, hother] at hnone
  cases hnone hr

theorem ordered_iff : c.Ordered ↔ ∀ name, c.OrderedAt name := by
  constructor
  · intro h name
    refine List.pairwise_iff_getElem.2 fun i j hi hj hij hr => ?_
    obtain ⟨known, hknown, hr⟩ := (Option.any_eq_true ..).1 hr
    have hi := known?_eq_some.2 ⟨hi, hknown⟩
    cases hother : c.toList[j].lookup? name with
    | none => rfl
    | some other =>
      have hj := known?_eq_some.2 ⟨hj, hother⟩
      cases ho : other.isReserved with
      | true => exact absurd (h.reserved_once hi hr hj ho) (Nat.ne_of_lt hij)
      | false => exact absurd (h.declared_inside hj ho hi hr) (Nat.lt_asymm hij)
  · intro h
    refine ⟨fun hi hr hj ho => ?_, fun hi hr hj ho => ?_⟩
    · exact Nat.le_antisymm ((h _).le hj ho hi) ((h _).le hi hr hj)
    · refine Nat.lt_of_le_of_ne ((h _).le hj ho hi) ?_
      rintro rfl
      rw [hi] at hj
      cases hj
      rw [hr] at ho
      cases ho

def names (c : ScopeChain) : List String := c.toList.flatMap fun scope => scope.definitions.map (·.1)

theorem orderedAt_of_not_mem (h : name ∉ c.names) : c.OrderedAt name := by
  refine List.pairwise_of_forall_mem_list fun inner hm outer _ hr => ?_
  have hnone : inner.lookup? name = none := by
    refine List.lookup_eq_none_iff.2 fun entry he => bne_iff_ne.2 ?_
    rintro rfl
    exact h (List.mem_flatMap.2 ⟨inner, hm, List.mem_map_of_mem he⟩)
  rw [hnone] at hr
  cases hr

instance (c : ScopeChain) : Decidable c.Ordered :=
  decidable_of_iff (∀ name ∈ c.names, c.OrderedAt name) <| by
    refine Iff.trans ⟨fun h name => ?_, fun h name _ => h name⟩ ordered_iff.symm
    by_cases hm : name ∈ c.names
    · exact h name hm
    · exact orderedAt_of_not_mem hm

/-! ## Steps keep the order -/

theorem ordered_empty : empty.Ordered := by decide

theorem Ordered.push (h : c.Ordered) : c.push.Ordered := by
  refine ordered_iff.2 fun name => List.pairwise_cons.2 ⟨fun _ _ hr => ?_, ordered_iff.1 h name⟩
  cases hr

theorem Ordered.pop (h : c.Ordered) : c.pop.Ordered := by
  refine ordered_iff.2 fun name => ?_
  obtain hp | hp := c.pop_cases
  · rw [hp]
    exact ordered_iff.1 h name
  · rw [OrderedAt, hp]
    exact List.Pairwise.tail (ordered_iff.1 h name)

/-- Any name may be declared, but only one that no scope knows may be marked as a keyword. -/
theorem Ordered.insert {known : Definition} (h : c.Ordered)
    (hk : known.isReserved = true → c.lookup? name = none) : (c.insert name known).Ordered := by
  refine ordered_iff.2 fun other => ?_
  have ho := ordered_iff.1 h other
  rw [OrderedAt, toList_eq] at ho
  obtain ⟨hinner, htail⟩ := List.pairwise_cons.1 ho
  rw [OrderedAt, toList_insert]
  refine List.pairwise_cons.2 ⟨fun outer hm hr => ?_, htail⟩
  rw [Scope.lookup?_insert] at hr
  by_cases heq : other = name
  · subst heq
    rw [if_pos rfl] at hr
    exact lookup?_eq_none.1 (hk hr) outer (List.mem_of_mem_tail hm)
  · rw [if_neg heq] at hr
    exact hinner outer hm hr

example : let outer := (empty.insert "this" ⟨.ofName "this" .start, false⟩).push
    (outer.reserve (.ofName "this" .start)).toOption.any (fun c => ¬ c.Ordered) = true := by decide

theorem Ordered.define {d : ScopeChain} {node : Node} (h : c.Ordered) (hd : c.define node = .ok d) :
    d.Ordered := by
  obtain ⟨name, -, -, rfl⟩ := define_eq_ok hd
  exact h.insert nofun

end ScopeChain

/-! ## Steps that are checked -/

def Parse.checked {α : Type} (alarm : SyntaxError) (step : Parse α) : Parse α := fun p =>
  if (step p).2.scopes.Ordered then step p else (.error alarm, (step p).2)

/-- All steps, be they successful or not, with an alarm if they leave scopes that are not in order. -/
def Actions.checked (alarm : SyntaxError) (act : Actions) : Actions where
  advance := act.advance.checked alarm
  label := act.label.checked alarm
  define t := (act.define t).checked alarm
  reserve t := (act.reserve t).checked alarm
  openScope := act.openScope.checked alarm
  closeScope := act.closeScope.checked alarm

section
open Parse Actions

variable {alarm : SyntaxError} {α : Type} {table : SymbolTable}

theorem Parse.mapError_id (x : Parse α) : x.mapError id = x := by
  funext p
  rw [mapError]
  cases x p with
  | mk result q => cases result <;> rfl

theorem mirrors_checked {pre : Parser → Prop} {post : α → Parser → Prop} {x : Parse α}
    (h : ∀ p, pre p → (x p).2.scopes.Ordered)
    (hpost : ∀ p a q, pre p → x p = (.ok a, q) → q.scopes.Ordered → post a q) :
    Mirrors id pre (x.checked alarm) x post := by
  intro p hp
  rw [mapError_id]
  refine ⟨if_pos (h p hp), fun a q hx => hpost p a q hp hx ?_⟩
  have ho := h p hp
  rwa [hx] at ho

theorem scopes_of_move (p : Parser) : (moveOn table p).2.scopes = p.scopes := by
  unfold moveOn
  split
  · rfl
  · split <;> rfl

theorem ordered_changeScopes {change : ScopeChain → Except SyntaxError ScopeChain} {p : Parser}
    (hp : p.scopes.Ordered) (h : ∀ d, change p.scopes = .ok d → d.Ordered) :
    (changeScopes change p).2.scopes.Ordered := by
  unfold changeScopes
  split
  · exact h _ ‹_›
  · exact hp

theorem ordered_define {t : SymbolToken} {p : Parser} (hp : p.scopes.Ordered) :
    ((standard table).define t p).2.scopes.Ordered := by
  have ho : (changeScopes (·.define t.asName) p).2.scopes.Ordered :=
    ordered_changeScopes hp fun _ hd => hp.define hd
  simp only [standard, bind_apply]
  generalize changeScopes (·.define t.asName) p = run at ho
  obtain ⟨result, q⟩ := run
  cases result <;> exact ho

end

theorem ordered_of_readIn {t : SymbolToken} {p : Parser} (hp : p.scopes.Ordered)
    (h : t.ReadIn p.scopes) (hid : t.id ≠ nameId) :
    ∃ scopes, (Actions.standard .grammar).reserve t p = (.ok (), { p with scopes }) ∧
      scopes.Ordered ∧ ∀ name, scopes.resolve .grammar name = p.scopes.resolve .grammar name := by
  obtain ⟨scopes, hs, rfl | ⟨hnone, rfl⟩⟩ := Actions.reserve_of_readIn h hid
  · exact ⟨_, hs, hp, fun _ => rfl⟩
  · exact ⟨_, hs, hp.insert fun _ => hnone, ScopeChain.resolve_insert hnone⟩

def Mirror.checked (alarm : SyntaxError) : Mirror where
  act := (Actions.standard .grammar).checked alarm
  change := id
  settled p := p.Fresh .grammar ∧ p.scopes.Ordered
  loose p := p.scopes.Ordered
  plain _ := rfl
  fresh hp := hp.1
  loosen hp := hp.2
  advance := mirrors_checked (fun p hp => (scopes_of_move p).symm ▸ hp)
    fun _ _ _ _ hm ho => ⟨Parser.fresh_of_moveOn hm, ho⟩
  label := mirrors_checked (fun p hp => (scopes_of_move p).symm ▸ hp)
    fun _ _ _ _ hm ho => ⟨Parser.fresh_of_moveOn hm, ho⟩
  define t := mirrors_checked (fun _ hp => ordered_define hp.2) fun _ _ _ _ _ ho => ho
  reserve t := by
    refine mirrors_checked (fun p hp => ?_) fun p _ q hp hr ho => ?_
    · obtain ⟨scopes, hs, ho, -⟩ := ordered_of_readIn hp.1.2 hp.2.1 hp.2.2
      rwa [hs]
    · obtain ⟨scopes, hs, -, hsame⟩ := ordered_of_readIn hp.1.2 hp.2.1 hp.2.2
      rw [hs] at hr
      cases hr
      exact ⟨hp.1.1.congr hsame, ho⟩
  openScope := by
    refine mirrors_checked (fun p hp => hp.2.push) fun p _ q hp hr ho => ?_
    cases hr
    exact ⟨hp.1.congr fun name => p.scopes.resolve_push .grammar name, ho⟩
  closeScope := mirrors_checked (fun p hp => hp.2.pop) fun _ _ _ _ _ ho => ho

/-- **Keywords lie outside of variables** in every state that a parse reaches. Checking all its steps
changes nothing about it, whatever the alarm is. -/
theorem script_checked (alarm : SyntaxError) (tokens : List Token) :
    (Parser.start tokens).scopes.Ordered ∧
      Parse.script .grammar ((Actions.standard .grammar).checked alarm) (.start tokens) =
        Parse.script .grammar (.standard .grammar) (.start tokens) ∧
      Parse.singleExpression .grammar ((Actions.standard .grammar).checked alarm) (.start tokens) =
        Parse.singleExpression .grammar (.standard .grammar) (.start tokens) := by
  have hc := mirrors_nested (.checked alarm) (Parser.start tokens).reach
  have hscript := (mirrors_script hc (.start tokens) ScopeChain.ordered_empty).1
  have hexpression := (mirrors_singleExpression hc (.start tokens) ScopeChain.ordered_empty).1
  exact ⟨ScopeChain.ordered_empty, hscript.trans (congrFun (Parse.mapError_id _) _),
    hexpression.trans (congrFun (Parse.mapError_id _) _)⟩

end ScriptTree
