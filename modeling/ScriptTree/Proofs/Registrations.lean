import ScriptTree.Parser.Run

/-!
# Registrations

A symbol table is built by registrations, each of which gives something for one id: a power, a rule,
a value. The power of a symbol is the greatest one given; of all else the last one given stays,
whatever else was registered before or after it. So only registrations that fill the same slot of the
same symbol have an order (`symbols_of_registrations`).
-/

namespace ScriptTree

inductive Registration where
  | register (id : String) (power : BindingPower)
  | addPrefix (id : String) (rule : PrefixRule)
  | addInfix (id : String) (power : BindingPower) (rule : InfixRule)
  | addStatement (id : String) (rule : StatementRule)
  | addBinary (id : String) (power : BindingPower)
  | addBinaryRight (id : String) (power : BindingPower)
  | addUnary (id : String)
  | addAssignment (id : String)
  | addConstant (id : String) (value : Value)
deriving DecidableEq

/-- What a symbol holds besides its power; the infix rule comes with a power of its own. -/
inductive Slot where
  | prefixRule
  | infixRule
  | statementRule
  | constant

namespace Registration

def id : Registration → String
  | register id _ | addPrefix id _ | addInfix id _ _ | addStatement id _ | addBinary id _
  | addBinaryRight id _ | addUnary id | addAssignment id | addConstant id _ => id

/-! ### What is given -/

def power? : Registration → Option BindingPower
  | register _ power | addInfix _ power _ | addBinary _ power | addBinaryRight _ power => some power
  | addAssignment _ => some .assignment
  | _ => none

def prefixRule? : Registration → Option PrefixRule
  | addPrefix _ rule => some rule
  | addUnary _ => some .unary
  | addConstant _ _ => some .constant
  | _ => none

def infixRule? : Registration → Option (InfixRule × BindingPower)
  | addInfix _ power rule => some (rule, power)
  | addBinary _ power => some (.binary, power)
  | addBinaryRight _ power => some (.binaryRight, power)
  | addAssignment _ => some (.assignment, .assignment)
  | _ => none

def statementRule? : Registration → Option StatementRule
  | addStatement _ rule => some rule
  | _ => none

def constant? : Registration → Option Value
  | addConstant _ value => some value
  | _ => none

def fills (call : Registration) : Slot → Bool
  | .prefixRule => call.prefixRule?.isSome
  | .infixRule => call.infixRule?.isSome
  | .statementRule => call.statementRule?.isSome
  | .constant => call.constant?.isSome

def given {α : Type} (gives : Registration → Option α) (calls : List Registration) (id : String) :
    List α :=
  calls.filterMap fun call => if call.id = id then gives call else none

/-- The same registrations in another order, except that those that fill the same slot of the same
symbol come in the same order. -/
structure Reorders (calls other : List Registration) : Prop where
  perm : calls.Perm other
  kept (id : String) (slot : Slot) :
    calls.filter (fun call => call.id = id ∧ call.fills slot) =
      other.filter (fun call => call.id = id ∧ call.fills slot)

/-- What registrations make of the symbol of their id: the greatest power stays, and the last of all
else. -/
structure Settle (calls : List Registration) (before after : Symbol) : Prop where
  id : after.id = before.id
  power : (before.power :: given power? calls before.id).max? = some after.power
  prefixRule : after.prefixRule? =
    (given prefixRule? calls before.id).getLast?.or before.prefixRule?
  infixRule : after.infixRule? =
    ((given infixRule? calls before.id).getLast?.map Prod.fst).or before.infixRule?
  infixPower : after.infixPower =
    ((given infixRule? calls before.id).getLast?.map Prod.snd).getD before.infixPower
  statementRule : after.statementRule? =
    (given statementRule? calls before.id).getLast?.or before.statementRule?
  constant : after.constant? = (given constant? calls before.id).getLast?.or before.constant?

end Registration

namespace SymbolTable

def add (table : SymbolTable) : Registration → SymbolTable
  | .register id power => table.register id power
  | .addPrefix id rule => table.addPrefix id rule
  | .addInfix id power rule => table.addInfix id power rule
  | .addStatement id rule => table.addStatement id rule
  | .addBinary id power => table.addBinary id power
  | .addBinaryRight id power => table.addBinaryRight id power
  | .addUnary id => table.addUnary id
  | .addAssignment id => table.addAssignment id
  | .addConstant id value => table.addConstant id value

def addAll (table : SymbolTable) (calls : List Registration) : SymbolTable := calls.foldl add table

def symbol (table : SymbolTable) (id : String) : Symbol := (table.lookup? id).getD { id }

def Agrees (table other : SymbolTable) : Prop := ∀ id, table.lookup? id = other.lookup? id

end SymbolTable

/-! ## One registration -/

def Registration.change (call : Registration) (s : Symbol) : Symbol where
  id := s.id
  power := max s.power (call.power?.getD .none)
  prefixRule? := call.prefixRule?.or s.prefixRule?
  infixRule? := (call.infixRule?.map Prod.fst).or s.infixRule?
  infixPower := (call.infixRule?.map Prod.snd).getD s.infixPower
  statementRule? := call.statementRule?.or s.statementRule?
  constant? := call.constant?.or s.constant?

namespace SymbolTable

variable {table : SymbolTable} {id other : String} {f : Symbol → Symbol}

theorem find?_updateIn (hid : ∀ s, (f s).id = s.id) (id other : String) (symbols : List Symbol) :
    (updateIn id f symbols).find? (·.id == other) =
      if other = id then some (f ((symbols.find? (·.id == id)).getD { id }))
      else symbols.find? (·.id == other) := by
  induction symbols with
  | nil =>
    by_cases h : other = id
    · simp [updateIn, hid, h]
    · simp [updateIn, hid, h, Ne.symm h]
  | cons symbol rest ih =>
    by_cases hs : symbol.id = id
    · by_cases h : other = id
      · simp [updateIn, hs, hid, h]
      · simp [updateIn, hs, hid, h, Ne.symm h]
    · by_cases h : other = id
      · subst h
        simp [updateIn, hs, ih]
      · simp [updateIn, hs, ih, h, List.find?_cons]

theorem lookup?_update (hid : ∀ s, (f s).id = s.id) : (table.update id f).lookup? other =
    if other = id then some (f (table.symbol id)) else table.lookup? other :=
  find?_updateIn hid id other table.symbols

theorem updateIn_updateIn (hid : ∀ s, (f s).id = s.id) (g : Symbol → Symbol) (symbols : List Symbol) :
    updateIn id g (updateIn id f symbols) = updateIn id (g ∘ f) symbols := by
  induction symbols with
  | nil => simp [updateIn, hid]
  | cons symbol rest ih =>
    by_cases hs : symbol.id = id
    · simp [updateIn, hid, hs]
    · simp [updateIn, hs, ih]

theorem update_update (hid : ∀ s, (f s).id = s.id) (g : Symbol → Symbol) :
    (table.update id f).update id g = table.update id (g ∘ f) :=
  congrArg mk (updateIn_updateIn hid g table.symbols)

/-- Each of the registrations is one change of one symbol. -/
theorem add_eq_update (table : SymbolTable) (call : Registration) :
    table.add call = table.update call.id call.change := by
  cases call <;>
    simp only [add, register, addPrefix, addInfix, addStatement, addBinary, addBinaryRight, addUnary,
      addAssignment, addConstant, update_update, Function.comp_apply, implies_true]
  -- what is put together must be the change, field by field
  all_goals
    refine congrArg (table.update _) (funext fun s => ?_)
    simp [Registration.change, Registration.power?, Registration.prefixRule?, Registration.infixRule?,
      Registration.statementRule?, Registration.constant?, BindingPower.none]

theorem lookup?_add (table : SymbolTable) (call : Registration) (id : String) :
    (table.add call).lookup? id =
      if id = call.id then some (call.change (table.symbol call.id)) else table.lookup? id := by
  rw [add_eq_update]
  exact lookup?_update fun _ => rfl

theorem lookup?_add_of_ne {call : Registration} (h : call.id ≠ id) :
    (table.add call).lookup? id = table.lookup? id := by
  rw [lookup?_add, if_neg (Ne.symm h)]

theorem symbol_add_of_ne {call : Registration} (h : call.id ≠ id) :
    (table.add call).symbol id = table.symbol id := by
  rw [symbol, lookup?_add_of_ne h, symbol]

theorem symbol_add (table : SymbolTable) (call : Registration) :
    (table.add call).symbol call.id = call.change (table.symbol call.id) := by
  rw [symbol, lookup?_add, if_pos rfl, Option.getD_some]

theorem symbol_of_none (h : table.lookup? id = none) : table.symbol id = { id } := by
  rw [symbol, h, Option.getD_none]

theorem id_symbol (table : SymbolTable) (id : String) : (table.symbol id).id = id := by
  unfold symbol lookup?
  cases h : table.symbols.find? (·.id == id) with
  | none => rfl
  | some s => exact eq_of_beq (List.find?_some h :)

end SymbolTable

/-! ## Many registrations -/

namespace Registration

variable {α : Type} {gives : Registration → Option α} {call : Registration}
  {calls other : List Registration} {id : String} {before after : Symbol}

theorem given_cons_self (h : call.id = id) :
    given gives (call :: calls) id = (gives call).toList ++ given gives calls id := by
  unfold given
  cases hg : gives call <;> simp [h, hg]

theorem given_cons_of_ne (h : call.id ≠ id) :
    given gives (call :: calls) id = given gives calls id := by
  unfold given
  simp [h]

theorem getLast?_toList_append (first : Option α) (rest : List α) :
    (first.toList ++ rest).getLast? = rest.getLast?.or first := by
  rw [List.getLast?_append]
  cases first <;> rfl

theorem max?_toList_append (power : BindingPower) (first : Option BindingPower)
    (rest : List BindingPower) :
    (power :: (first.toList ++ rest)).max? = (max power (first.getD .none) :: rest).max? := by
  cases first with
  | none => rw [Option.getD_none, BindingPower.none, Nat.max_zero]; rfl
  | some p => exact (List.max?_cons').trans List.max?_cons'.symm

theorem settle_nil (s : Symbol) : Settle [] s s where
  id := rfl
  power := rfl
  prefixRule := rfl
  infixRule := rfl
  infixPower := rfl
  statementRule := rfl
  constant := rfl

theorem Settle.cons_of_ne (h : call.id ≠ before.id) (hs : Settle calls before after) :
    Settle (call :: calls) before after where
  id := hs.id
  power := by rw [given_cons_of_ne h, hs.power]
  prefixRule := by rw [given_cons_of_ne h, hs.prefixRule]
  infixRule := by rw [given_cons_of_ne h, hs.infixRule]
  infixPower := by rw [given_cons_of_ne h, hs.infixPower]
  statementRule := by rw [given_cons_of_ne h, hs.statementRule]
  constant := by rw [given_cons_of_ne h, hs.constant]

theorem Settle.cons (h : call.id = before.id) (hs : Settle calls (call.change before) after) :
    Settle (call :: calls) before after where
  id := hs.id
  power := by rw [given_cons_self h, max?_toList_append]; exact hs.power
  prefixRule := by
    rw [given_cons_self h, getLast?_toList_append, Option.or_assoc]
    exact hs.prefixRule
  infixRule := by
    rw [given_cons_self h, getLast?_toList_append, Option.map_or, Option.or_assoc]
    exact hs.infixRule
  infixPower := by
    rw [given_cons_self h, getLast?_toList_append, Option.map_or, Option.getD_or]
    exact hs.infixPower
  statementRule := by
    rw [given_cons_self h, getLast?_toList_append, Option.or_assoc]
    exact hs.statementRule
  constant := by
    rw [given_cons_self h, getLast?_toList_append, Option.or_assoc]
    exact hs.constant

/-- **A run of registrations** leaves the greatest power and the last of all else. -/
theorem settle_addAll (calls : List Registration) (table : SymbolTable) (id : String) :
    Settle calls (table.symbol id) ((table.addAll calls).symbol id) := by
  induction calls generalizing table with
  | nil => exact settle_nil _
  | cons call rest ih =>
    have hrest := ih (table.add call)
    by_cases h : call.id = id
    · subst h
      rw [table.symbol_add] at hrest
      exact hrest.cons (table.id_symbol call.id).symm
    · rw [SymbolTable.symbol_add_of_ne h] at hrest
      exact hrest.cons_of_ne (by rwa [table.id_symbol])

theorem lookup?_addAll_of_ne (table : SymbolTable) (h : ∀ call ∈ calls, call.id ≠ id) :
    (table.addAll calls).lookup? id = table.lookup? id := by
  induction calls generalizing table with
  | nil => rfl
  | cons call rest ih =>
    have hrest := ih (table.add call) fun c hc => h c (.tail _ hc)
    exact hrest.trans (SymbolTable.lookup?_add_of_ne (h call (.head _)))

theorem contains_add {table : SymbolTable} (call : Registration) (h : table.contains id = true) :
    (table.add call).contains id = true := by
  unfold SymbolTable.contains at *
  rw [SymbolTable.lookup?_add]
  split
  · rfl
  · exact h

theorem contains_addAll {table : SymbolTable} (calls : List Registration)
    (h : table.contains id = true) : (table.addAll calls).contains id = true := by
  induction calls generalizing table with
  | nil => exact h
  | cons call rest ih => exact ih (contains_add call h)

theorem contains_addAll_of_mem (table : SymbolTable) (h : call ∈ calls) :
    (table.addAll calls).contains call.id = true := by
  obtain ⟨before, rest, rfl⟩ := List.append_of_mem h
  have hcall : ((table.addAll before).add call).contains call.id = true := by
    rw [SymbolTable.contains, SymbolTable.lookup?_add, if_pos rfl]
    rfl
  have hrest := contains_addAll rest hcall
  rwa [SymbolTable.addAll, List.foldl_append]

theorem lookup?_addAll_of_mem (table : SymbolTable) (h : call ∈ calls) :
    (table.addAll calls).lookup? call.id = some ((table.addAll calls).symbol call.id) := by
  have hsome := contains_addAll_of_mem table h
  obtain ⟨s, hs⟩ := Option.isSome_iff_exists.1 hsome
  rw [SymbolTable.symbol, hs, Option.getD_some]

/-! ## What follows -/

/-- The infix rule is never given a power that is not given to the symbol, too. -/
theorem power?_of_infixRule? {rule : InfixRule} {power : BindingPower}
    (h : call.infixRule? = some (rule, power)) : call.power? = some power := by
  cases call <;> simp_all [infixRule?, power?]

theorem mem_given {a : α} : a ∈ given gives calls id ↔
    ∃ call ∈ calls, call.id = id ∧ gives call = some a := by
  simp [given]

theorem Settle.infixPower_le (h : Settle calls before after)
    (hb : before.infixPower ≤ before.power) : after.infixPower ≤ after.power := by
  obtain ⟨-, hmax⟩ := List.max?_eq_some_iff.1 h.power
  rw [h.infixPower]
  cases hl : (given infixRule? calls before.id).getLast? with
  | none => exact Nat.le_trans hb (hmax _ (.head _))
  | some last =>
    obtain ⟨call, hm, hid, hg⟩ := mem_given.1 (List.mem_of_getLast? hl)
    have hpower : last.2 ∈ given power? calls before.id :=
      mem_given.2 ⟨call, hm, hid, power?_of_infixRule? hg⟩
    exact hmax _ (.tail _ hpower)

theorem given_eq_filterMap (gives : Registration → Option α) (slot : Slot)
    (hs : ∀ call, call.fills slot = (gives call).isSome) (calls : List Registration) (id : String) :
    given gives calls id =
      (calls.filter fun call => call.id = id ∧ call.fills slot).filterMap gives := by
  rw [given, List.filterMap_filter]
  congr 1
  funext call
  rw [hs]
  cases gives call <;> simp

theorem Reorders.given_eq (h : Reorders calls other) (slot : Slot)
    (hs : ∀ call, call.fills slot = (gives call).isSome) (id : String) :
    given gives other id = given gives calls id := by
  rw [given_eq_filterMap gives slot hs, given_eq_filterMap gives slot hs, h.kept]

theorem max?_of_perm {powers more : List BindingPower} {power greatest : BindingPower}
    (h : powers.Perm more) (hp : powers.max? = some power) (hm : more.max? = some greatest) :
    power = greatest := by
  obtain ⟨hmem, hmax⟩ := List.max?_eq_some_iff.1 hp
  obtain ⟨hmem', hmax'⟩ := List.max?_eq_some_iff.1 hm
  exact Nat.le_antisymm (hmax' _ (h.mem_iff.1 hmem)) (hmax _ (h.mem_iff.2 hmem'))

/-- Registrations in another order settle a symbol in the same way. -/
theorem Settle.eq_of_reorders (h : Reorders calls other) {settled : Symbol}
    (hc : Settle calls before after) (ho : Settle other before settled) : settled = after := by
  have hpower : settled.power = after.power :=
    max?_of_perm ((h.perm.symm.filterMap _).cons _) ho.power hc.power
  have hprefix : settled.prefixRule? = after.prefixRule? := by
    rw [ho.prefixRule, hc.prefixRule, h.given_eq .prefixRule fun _ => rfl]
  have hinfix : settled.infixRule? = after.infixRule? := by
    rw [ho.infixRule, hc.infixRule, h.given_eq .infixRule fun _ => rfl]
  have hinfixPower : settled.infixPower = after.infixPower := by
    rw [ho.infixPower, hc.infixPower, h.given_eq .infixRule fun _ => rfl]
  have hstatement : settled.statementRule? = after.statementRule? := by
    rw [ho.statementRule, hc.statementRule, h.given_eq .statementRule fun _ => rfl]
  have hconstant : settled.constant? = after.constant? := by
    rw [ho.constant, hc.constant, h.given_eq .constant fun _ => rfl]
  have hid : settled.id = after.id := ho.id.trans hc.id.symm
  cases settled
  cases after
  simp only at hid hpower hprefix hinfix hinfixPower hstatement hconstant
  rw [hid, hpower, hprefix, hinfix, hinfixPower, hstatement, hconstant]

theorem agrees_of_reorders (table : SymbolTable) (h : Reorders calls other) :
    (table.addAll other).Agrees (table.addAll calls) := by
  intro id
  by_cases hm : ∃ call ∈ calls, call.id = id
  · obtain ⟨call, hc, rfl⟩ := hm
    rw [lookup?_addAll_of_mem table hc, lookup?_addAll_of_mem table (h.perm.mem_iff.1 hc),
      (settle_addAll calls table call.id).eq_of_reorders h (settle_addAll other table call.id)]
  · have hne : ∀ call ∈ calls, call.id ≠ id := fun call hc he => hm ⟨call, hc, he⟩
    rw [lookup?_addAll_of_ne table hne,
      lookup?_addAll_of_ne table fun call hc => hne call (h.perm.mem_iff.2 hc)]

end Registration

/-! ## Tables that agree -/

namespace SymbolTable

namespace Agrees

variable {table other : SymbolTable} (h : table.Agrees other)
include h

theorem lookup?_eq : table.lookup? = other.lookup? := funext h

theorem contains (id : String) : table.contains id = other.contains id := by
  rw [SymbolTable.contains, h.lookup?_eq, SymbolTable.contains]

theorem power (id : String) : table.power id = other.power id := by
  rw [SymbolTable.power, h.lookup?_eq, SymbolTable.power]

theorem standard : Actions.standard table = Actions.standard other := by
  have hmove : Actions.moveOn table = Actions.moveOn other := by
    funext p
    simp only [Actions.moveOn, classify, ScopeChain.resolve, h.contains]
  rw [Actions.standard, hmove, Actions.standard]

theorem parse (rule : PrefixRule) (act : Actions) (calls : Calls) (token : SymbolToken) :
    rule.parse table act calls token = rule.parse other act calls token := by
  cases rule with
  | constant =>
    rw [PrefixRule.parse, PrefixRule.constantNode, h.lookup?_eq, PrefixRule.parse,
      PrefixRule.constantNode]
  | _ => rfl

theorem next (act : Actions) (calls : Calls) :
    Calls.next table act calls = Calls.next other act calls := by
  have hexpression : Calls.nextExpression table act calls = Calls.nextExpression other act calls := by
    funext power
    simp only [Calls.nextExpression, h.lookup?_eq, h.parse]
  have hclimb : Calls.nextClimb table act calls = Calls.nextClimb other act calls := by
    funext power left
    simp only [Calls.nextClimb, h.lookup?_eq, h.power]
  have hstatement : Calls.nextStatement table act calls = Calls.nextStatement other act calls := by
    simp only [Calls.nextStatement, h.lookup?_eq]
  rw [Calls.next, hexpression, hclimb, hstatement, Calls.next]

theorem withCalls {α : Type} (act : Actions) (select : Calls → Parse α) :
    Parse.withCalls table act select = Parse.withCalls other act select := by
  have hnext : Calls.next table act = Calls.next other act := funext (h.next act)
  funext p
  rw [Parse.withCalls, Calls.nested, hnext, Parse.withCalls, Calls.nested]

theorem parse_eq (tokens : List Token) : parseTokens table tokens = parseTokens other tokens ∧
    parseExpression table tokens = parseExpression other tokens := by
  simp only [parseTokens, parseExpression, Parse.script, Parse.singleExpression, h.standard,
    h.withCalls, and_self]

end Agrees

/-- **Registrations have an order only within a slot.** Ids that are not named stay as they are. A
symbol that is named has the greatest power that it had or was given, and the last given of all else; so
its infix rule has no higher power than the symbol, if that was so before. And registrations in another
order, in which only those that fill the same slot of the same symbol follow each other as before, make
the same symbols, so that everything is parsed alike. -/
theorem symbols_of_registrations (table : SymbolTable) (calls : List Registration) :
    (∀ id, (∀ call ∈ calls, call.id ≠ id) → (table.addAll calls).lookup? id = table.lookup? id) ∧
    (∀ call ∈ calls, ∃ after, (table.addAll calls).lookup? call.id = some after ∧
      let before := table.symbol call.id
      Registration.Settle calls before after ∧
        (before.infixPower ≤ before.power → after.infixPower ≤ after.power)) ∧
    ∀ other, Registration.Reorders calls other →
      (∀ id, (table.addAll other).lookup? id = (table.addAll calls).lookup? id) ∧
      ∀ tokens, parseTokens (table.addAll other) tokens = parseTokens (table.addAll calls) tokens ∧
        parseExpression (table.addAll other) tokens = parseExpression (table.addAll calls) tokens := by
  refine ⟨fun id h => Registration.lookup?_addAll_of_ne table h, fun call hc => ?_, fun other h => ?_⟩
  · have hsettle := Registration.settle_addAll calls table call.id
    exact ⟨_, Registration.lookup?_addAll_of_mem table hc, hsettle, hsettle.infixPower_le⟩
  · have hagrees := Registration.agrees_of_reorders table h
    exact ⟨hagrees, hagrees.parse_eq⟩

/-- An operator and a word are registered several times each, in two orders; the tables differ only in
which of the two comes first. -/
theorem symbols_of_registrations_at_operator :
    let word := Registration.addConstant "e" .null
    let calls := [.addBinary "@" .member, word, .addBinaryRight "@" .logical, .addPrefix "e" .self,
      .register "@" .relational]
    let other := [word, .register "@" .relational, .addBinary "@" .member, .addPrefix "e" .self,
      .addBinaryRight "@" .logical]
    let operator : Symbol :=
      { id := "@", power := .member, infixRule? := some .binaryRight, infixPower := .logical }
    let named : Symbol := { id := "e", prefixRule? := some .self, constant? := some .null }
    empty.addAll calls = ⟨[operator, named]⟩ ∧ (empty.addAll calls).lookup? "x" = none ∧
      Registration.Settle calls { id := "@" } operator ∧ operator.infixPower ≤ operator.power ∧
      Registration.Reorders calls other ∧ empty.addAll other = ⟨[named, operator]⟩ ∧
      ∀ tokens, parseTokens (empty.addAll other) tokens = parseTokens (empty.addAll calls) tokens := by
  intro word calls other operator named
  have hcalls : empty.addAll calls = ⟨[operator, named]⟩ := by decide
  have h : Registration.Reorders calls other := by
    refine ⟨by decide, fun id slot => ?_⟩
    by_cases ho : id = "@"
    · subst ho
      cases slot <;> decide
    · by_cases hw : id = "e"
      · subst hw
        cases slot <;> decide
      · simp [calls, other, word, Registration.id, Ne.symm ho, Ne.symm hw]
  obtain ⟨hsame, hsettle, hother⟩ := symbols_of_registrations empty calls
  obtain ⟨after, hafter, hs, hle⟩ := hsettle (.addBinary "@" .member) (.head _)
  have hoperator : after = operator := by
    rw [hcalls] at hafter
    exact (Option.some.inj hafter).symm
  subst hoperator
  exact ⟨hcalls, hsame "x" (by decide), hs, hle (Nat.le_refl _), h, by decide,
    fun tokens => ((hother other h).2 tokens).1⟩

end SymbolTable

end ScriptTree
